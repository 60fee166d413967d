import Bitemporal.Proofs.Store.Contents
import Bitemporal.Proofs.Store.Locality

/-!
# Components and their declarations

What the versions of a component may carry is said elsewhere: by the kind that the
identities have for it, and, if it is a semantic, by the schema that its assemblage has.
Both are there when the component is made or imported (`Operation.knows_of_new`). Its shape
stays as it is, a schema is never replaced, and neither is a kind, so both are there from
then on (`knows_run`). Only the identities may be reset behind the back of the store, and
with them the kinds are gone.

So every version of every component carries what is declared for the component, and can be
read under its declaration (`history_matches_declaration`).
-/

namespace Bitemporal.Store

variable {kept : Prop} {s t : Store} {n : Nid} {h : History} {shape : Shape}

/-- What the tables of a store know of a component of a shape: the schema of its
    assemblage, and its kind if kinds are kept. -/
structure Knows (kept : Prop) (s : Store) (n : Nid) (shape : Shape) : Prop where
  described : s.Described shape
  kind : kept → ∃ seq, s.identities.kinds.get? n = some (shape.kind, seq)

theorem Knows.imp {kept' : Prop} (hk : s.Knows kept n shape) (himp : kept' → kept) :
    s.Knows kept' n shape :=
  ⟨hk.described, fun h => hk.kind (himp h)⟩

/-- What is known goes on being known, but for the kind if the identities are reset. -/
theorem Knows.after {op : Operation} (hk : s.Knows kept n shape) (hop : op ≠ .reset)
    (hids : kept → op ≠ .toIdentities .reset) : (op.after s).Knows kept n shape where
  described a ha := (hk.described a ha).imp fun _ hg => Operation.schemas_after hop hg
  kind hkept := (hk.kind hkept).imp fun _ hg => (op.growsTo_identities hop (hids hkept) s).kinds hg

/-! ## New components -/

theorem Created.knows {uuids : List Uuid} {answer : Except Error Nid}
    (hc : s.Created uuids shape answer t) (hs : s.histories.get? n = none)
    (ht : t.histories.get? n = some h) : t.Knows True n h.shape := by
  have habsent : s.histories.get? n ≠ some h := fun e => by
    rw [hs] at e
    cases e
  cases hc with
  | refused e => exact absurd ht habsent
  | unregistered hn hk => exact absurd ht habsent
  | found hr hg hshape => exact absurd ht habsent
  | contradicted hr hg hshape => exact absurd ht habsent
  | made hr hg =>
    obtain ⟨rfl, rfl⟩ := Table.eq_of_get?_insert hs ht
    obtain ⟨numbered, seq, -, hk⟩ := hr.registered
    have hdescribed : s.Described shape := fun _ ha => schema_of_checkShape hr.shape_ok ha
    exact ⟨hdescribed, fun _ => ⟨seq, Identities.kinds_of_registerKind hk⟩⟩

theorem Imported.knows {octets : List UInt8} {answer : Except Error Nid}
    (hi : s.Imported octets answer t) (hs : s.histories.get? n = none)
    (ht : t.histories.get? n = some h) : t.Knows True n h.shape := by
  have habsent : s.histories.get? n ≠ some h := fun e => by
    rw [hs] at e
    cases e
  cases hi with
  | refused e => exact absurd ht habsent
  | contradicted hd hr hres => exact absurd ht habsent
  | @installed r k schema seq identities hd hr hres =>
    obtain ⟨rfl, rfl⟩ := Table.eq_of_get?_insert hs ht
    obtain ⟨-, -, -, hshape, -⟩ := recordedHistory_eq_ok hr
    have hrestored := Identities.restored s.identities r.nid r.uuids r.kind
    rw [hres] at hrestored
    refine ⟨fun a ha => ?_, fun _ => ⟨seq, ?_⟩⟩
    · obtain ⟨declared, -, hg⟩ := get?_schemasWith_of_recordedShape hshape ha
      exact ⟨declared, hg⟩
    · rw [(recordedShape_eq_ok hshape).1]
      cases hrestored with
      | installed hb hk => exact Identities.kinds_of_registerKind hk

theorem knows_of_createPath {fresh : Uuid} {origins : List Origin}
    (hs : s.histories.get? n = none)
    (ht : ((createPath fresh origins).perform s).2.histories.get? n = some h) :
    ((createPath fresh origins).perform s).2.Knows True n h.shape := by
  rw [histories_createPath] at ht
  have hk := (created s [fresh] .concept).knows hs ht
  rcases after_createPath s fresh origins with heq | ⟨path, heq⟩
  · rwa [heq]
  · rw [heq]
    have hg := tablesGrow_declarePath ((create [fresh] .concept).perform s).2 path origins
    exact ⟨fun a ha => (hk.described a ha).imp fun _ hd => hg.schemas hd,
      fun hkept => (hk.kind hkept).imp fun _ hd => hg.identities.kinds hd⟩

/-- All is known of a component that an operation adds. -/
theorem Operation.knows_of_new {op : Operation} (hop : op ≠ .reset)
    (hs : s.histories.get? n = none) (ht : (op.after s).histories.get? n = some h) :
    (op.after s).Knows True n h.shape := by
  have hsame (hh : (op.after s).histories = s.histories) : (op.after s).Knows True n h.shape := by
    rw [hh, hs] at ht
    cases ht
  have htouched (m : Nid) (htarget : op.target? = some m) : (op.after s).Knows True n h.shape := by
    have hcomponents := (op.touched htarget s).components
    have hmem : n ∈ (op.after s).components :=
      mem_components_iff.2 ⟨h, history_eq_ok_iff.2 ht⟩
    rw [hcomponents, mem_components_iff] at hmem
    obtain ⟨k, hk⟩ := hmem
    rw [history_eq_ok hk] at hs
    cases hs
  cases op with
  | create uuids shape =>
    rw [after, perform, action, Action.perform_map] at ht ⊢
    exact (created s uuids shape).knows hs ht
  | createPath fresh origins =>
    rw [after, perform, action, Action.perform_map] at ht ⊢
    exact knows_of_createPath hs ht
  | importHistory octets =>
    rw [after, perform, action, Action.perform_map] at ht ⊢
    exact (imported s octets).knows hs ht
  | append nid stamp values => exact htouched nid rfl
  | updateDraft handle values => exact htouched handle.nid rfl
  | commit handle time => exact htouched handle.nid rfl
  | defineAssemblage assemblage schema =>
    refine hsame ?_
    rw [after, perform, action, Action.perform_map]
    exact (keeps_defineAssemblage s assemblage schema).histories
  | declarePath path origins =>
    refine hsame ?_
    rw [after, perform, action, Action.perform_map]
    exact (keeps_declarePath s path origins).histories
  | importStamps octets =>
    refine hsame ?_
    rw [after, perform, action, Action.perform_map]
    exact (keeps_importStamps s octets).histories
  | reset => exact absurd rfl hop
  | rebuildIndex => exact hsame rfl
  | toIdentities request => exact hsame rfl
  | toStamps request => exact hsame rfl
  | toLineage request => exact hsame rfl

/-! ## Runs -/

/-- All is known of every component, but for the kinds if the identities are reset. -/
theorem knows_run {ops : List Operation} (hops : kept → ∀ op ∈ ops, op ≠ .toIdentities .reset)
    (hget : (empty.run ops).histories.get? n = some h) :
    (empty.run ops).Knows kept n h.shape := by
  have hall : ∀ n h, (empty.run ops).histories.get? n = some h →
      (empty.run ops).Knows kept n h.shape := by
    refine run_induction (P := fun t => ∀ n h, t.histories.get? n = some h →
      t.Knows kept n h.shape) (fun n h hget => absurd hget (by simp [empty]))
      fun op hop t ht n h hget => ?_
    by_cases hreset : op = .reset
    · subst hreset
      exact absurd hget (by simp [Operation.after, Operation.perform, Operation.action, empty])
    cases hbefore : t.histories.get? n with
    | none => exact (Operation.knows_of_new hreset hbefore hget).imp fun _ => trivial
    | some k =>
      obtain ⟨k', hk', hgrows⟩ := (Operation.change hreset t).growsTo n k hbefore
      obtain rfl : k' = h := Option.some.inj (hk'.symm.trans hget)
      rw [hgrows.shape]
      exact (ht n k hbefore).after hreset fun hkept => hops hkept op hop
  exact hall n h hget

theorem schemas_run {ops : List Operation} (hops : .reset ∉ ops) {assemblage : Nid}
    {schema : Schema} (hg : s.schemas.get? assemblage = some schema) :
    (s.run ops).schemas.get? assemblage = some schema :=
  run_induction (P := fun t => t.schemas.get? assemblage = some schema) hg fun _ hop _ ht =>
    Operation.schemas_after (fun e => hops (e ▸ hop)) ht

/-! ## Versions -/

theorem payload_of_mem_entries {carries : Payload → Prop} {entry : Entry}
    (hk : h.WellKept carries) (he : entry ∈ h.entries) : carries entry.payload := by
  rcases List.mem_append.1 he with he | he
  · obtain ⟨version, hv, rfl⟩ := List.mem_map.1 he
    exact (hk.committed version hv).2
  · obtain ⟨draft, hd, rfl⟩ := List.mem_map.1 he
    exact (hk.pending draft (History.mem_pending_iff.1 hd)).2

/-- After any run, the kind of a component is the one that the identities have for it,
    unless they were reset alone. A concept has neither assemblage nor referenced component,
    and no fields. A semantic has both, its assemblage keeps the schema that it has until a
    reset, and every version, committed or not, carries a tuple that can be read under it. -/
theorem history_matches_declaration {ops : List Operation}
    (hh : (empty.run ops).history n = .ok h) :
    ((∀ op ∈ ops, op ≠ .toIdentities .reset) →
      (empty.run ops).identities.kindOf n = .ok h.shape.kind) ∧
    (h.shape.kind = .concept → h.shape.assemblage? = none ∧ h.shape.referenced? = none ∧
      ∀ entry ∈ h.entries, entry.payload = .bare) ∧
    (h.shape.kind = .semantic → ∃ assemblage referenced schema,
      h.shape.assemblage? = some assemblage ∧ h.shape.referenced? = some referenced ∧
      (∀ later, .reset ∉ later → ((empty.run ops).run later).schema assemblage = .ok schema) ∧
      ∀ entry ∈ h.entries, ∃ tuple, entry.payload = .fields tuple ∧ tuple.Readable schema) := by
  have hget := history_eq_ok hh
  have hwell := (contents_of_reachable ⟨ops, rfl⟩).wellKept hget
  refine ⟨fun hops => ?_, ?_, ?_⟩
  · have hknows : (empty.run ops).Knows True n h.shape := knows_run (fun _ => hops) hget
    exact Identities.kindOf_of_get? (hknows.kind trivial)
  · intro hkind
    cases hshape : h.shape with
    | concept =>
      rw [hshape] at hwell
      exact ⟨rfl, rfl, fun entry he => payload_of_mem_entries hwell he⟩
    | semantic assemblage referenced =>
      rw [hshape] at hkind
      cases hkind
  · intro hkind
    cases hshape : h.shape with
    | concept =>
      rw [hshape] at hkind
      cases hkind
    | semantic assemblage referenced =>
      obtain ⟨schema, hschema⟩ : ∃ schema, (empty.run ops).schemas.get? assemblage = some schema :=
        (knows_run False.elim hget).described assemblage (by rw [hshape]; rfl)
      refine ⟨assemblage, referenced, schema, rfl, rfl,
        fun later hlater => schema_eq_ok_iff.2 (schemas_run hlater hschema), fun entry he => ?_⟩
      rw [hshape] at hwell
      obtain ⟨held, tuple, hheld, hpayload, hfits⟩ := payload_of_mem_entries hwell he
      obtain rfl : held = schema := Option.some.inj (hheld.symm.trans hschema)
      exact ⟨tuple, hpayload, hfits.readable⟩

/-- The two commits and the draft of the semantic can be read under the schema of 1. -/
theorem founding_matches_declaration :
    ∃ h, (∀ op ∈ founding, op ≠ .toIdentities .reset) ∧
      (empty.run founding).history ⟨2⟩ = .ok h ∧ h.shape.kind = .semantic ∧
      (empty.run founding).identities.kindOf ⟨2⟩ = .ok .semantic ∧
      (empty.run founding).schema ⟨1⟩ = .ok ⟨#[.nid]⟩ ∧ h.entries.length = 3 ∧
      ∀ entry ∈ h.entries, ∃ tuple, entry.payload = .fields tuple ∧ tuple.Readable ⟨#[.nid]⟩ := by
  have hops : ∀ op ∈ founding, op ≠ .toIdentities .reset := by simp [founding]
  obtain ⟨h, hh, hshape, hlength⟩ : ∃ h, (empty.run founding).history ⟨2⟩ = .ok h ∧
      h.shape = .semantic ⟨1⟩ ⟨1⟩ ∧ h.entries.length = 3 := ⟨_, by cbv, by cbv, by cbv⟩
  have hkind : h.shape.kind = .semantic := by rw [hshape]; rfl
  have hdeclared : (empty.run founding).schema ⟨1⟩ = .ok ⟨#[.nid]⟩ := by cbv
  obtain ⟨hregistered, -, hsemantic⟩ := history_matches_declaration hh
  rw [hkind] at hregistered
  obtain ⟨assemblage, referenced, schema, ha, -, hschema, hentries⟩ := hsemantic hkind
  rw [hshape] at ha
  obtain rfl : ⟨1⟩ = assemblage := Option.some.inj ha
  have hheld := hschema [] List.not_mem_nil
  rw [run_nil, hdeclared] at hheld
  obtain rfl := Except.ok.inj hheld
  exact ⟨h, hops, hh, hkind, hregistered hops, hdeclared, hlength, hentries⟩

end Bitemporal.Store
