import Bitemporal.Proofs.Store.Declarations
import Bitemporal.Proofs.Store.Indexing
import Bitemporal.Proofs.Store.Recording

/-!
# Exported components

Every component can be exported: it has identifiers, a kind and, if it is a semantic, the
schema of its assemblage, whatever was done so far (`identified_run`, `knows_run`). What is
written is the record that says all there is to say of it. But counts are written to few
octets, and a component may have more than can be counted there: nothing bounds the
identifiers that it is made with, or the fields of a schema. So the record is read back just
if the counts of the component are small enough (`exported_tells_iff`), and if they are not,
it is lost (`wide_export_is_lost`).
-/

namespace Bitemporal.Store

variable {s : Store} {n : Nid} {h : History} {uuids : List Uuid}

/-- A record says all that there is to say of a component, but for its drafts. -/
structure Tells (s : Store) (n : Nid) (h : History) (r : Record.History) : Prop where
  nid : r.nid = n
  kind : s.identities.kindOf n = .ok r.kind
  uuids : s.identities.uuidsOf n = .ok r.uuids
  bare : h.shape = .concept → r.semantic = none
  header : ∀ {assemblage referenced}, h.shape = .semantic assemblage referenced →
    ∃ schema, s.schema assemblage = .ok schema ∧
      r.semantic = some { assemblage, referenced, fields := schema.types.toList }
  versions : r.versions = h.committed.map versionRow

theorem tells_recordWith (hd : s.Described h.shape)
    (hk : s.identities.kindOf h.nid = .ok h.shape.kind)
    (hu : s.identities.uuidsOf h.nid = .ok uuids) : s.Tells h.nid h (s.recordWith h uuids) where
  nid := rfl
  kind := hk
  uuids := hu
  bare hshape := by rw [recordWith, hshape, headerOf?]
  header {assemblage referenced} hshape := by
    obtain ⟨schema, hg⟩ := hd assemblage (by rw [hshape]; rfl)
    refine ⟨schema, schema_eq_ok_iff.2 hg, ?_⟩
    rw [recordWith, hshape, headerOf?, hg]
    rfl
  versions := rfl

/-- There is but one record that says it all. -/
theorem Tells.unique {r r' : Record.History} (hr : s.Tells n h r) (hr' : s.Tells n h r') :
    r = r' := by
  have hsemantic : r.semantic = r'.semantic := by
    cases hshape : h.shape with
    | concept => rw [hr.bare hshape, hr'.bare hshape]
    | semantic assemblage referenced =>
      obtain ⟨schema, hschema, hheader⟩ := hr.header hshape
      obtain ⟨schema', hschema', hheader'⟩ := hr'.header hshape
      rw [hschema] at hschema'
      rw [hheader, hheader', Except.ok.inj hschema']
  have hkind := Except.ok.inj (hr.kind.symm.trans hr'.kind)
  have huuids := Except.ok.inj (hr.uuids.symm.trans hr'.uuids)
  have hnid := hr.nid.trans hr'.nid.symm
  have hversions := hr.versions.trans hr'.versions.symm
  cases r
  cases r'
  exact (Record.History.mk.injEq ..).mpr ⟨hnid, hkind, huuids, hsemantic, hversions⟩

/-- What is read of the octets of a component says it all if the counts are small enough. -/
theorem tells_iff_recordable (hd : s.Described h.shape)
    (hk : s.identities.kindOf h.nid = .ok h.shape.kind)
    (hu : s.identities.uuidsOf h.nid = .ok uuids) :
    (∃ r, Record.History.decode (s.recordWith h uuids).encode = .ok r ∧ s.Tells h.nid h r) ↔
      s.Recordable h := by
  rw [← fits_recordWith_iff hd hu]
  constructor
  · rintro ⟨r, hr, htells⟩
    obtain rfl := htells.unique (tells_recordWith hd hk hu)
    exact (Record.History.decode_eq_ok_iff.1 hr).1
  · intro hfits
    exact ⟨_, Record.History.decode_eq_ok_iff.2 ⟨hfits, rfl⟩, tells_recordWith hd hk hu⟩

/-! ## Runs -/

/-- Every component has identifiers, unless they were reset alone. -/
theorem identified_run {ops : List Operation} (hops : ∀ op ∈ ops, op ≠ .toIdentities .reset)
    (hget : (empty.run ops).histories.get? n = some h) :
    ∃ uuids, (empty.run ops).identities.uuidsOf n = .ok uuids := by
  obtain ⟨seq, hk⟩ := (knows_run (fun _ => hops) hget).kind trivial
  cases hu : (empty.run ops).identities.uuids.get? n with
  | some uuids => exact ⟨uuids, Identities.uuidsOf_eq_ok_iff.2 hu⟩
  | none =>
    rw [kindsKnown_of_reachable ⟨ops, rfl⟩ n (Identities.contains_eq_false_iff.2 hu)] at hk
    cases hk

/-- After any run, every component can be exported; and what is exported is read back as a
    record that says all of the component just if its identifiers and the fields of its
    schema can be counted with 16 bits, and its versions and their octets with 32. -/
theorem exported_tells_iff {ops : List Operation} (hops : ∀ op ∈ ops, op ≠ .toIdentities .reset)
    (hh : (empty.run ops).history n = .ok h) :
    h.nid = n ∧ ∃ octets, (empty.run ops).exportHistory n = .ok octets ∧
      ((∃ r, Record.History.decode octets = .ok r ∧ (empty.run ops).Tells n h r) ↔
        (empty.run ops).Recordable h) := by
  have hget := history_eq_ok hh
  obtain rfl : h.nid = n := (indexed_of_reachable ⟨ops, rfl⟩).nid hget
  have hknows : (empty.run ops).Knows True h.nid h.shape := knows_run (fun _ => hops) hget
  obtain ⟨uuids, hu⟩ := identified_run hops hget
  have hexport := exportHistory_eq_map hknows.described hget
  rw [hu] at hexport
  exact ⟨rfl, _, hexport, tells_iff_recordable hknows.described
    (Identities.kindOf_of_get? (hknows.kind trivial)) hu⟩

/-- The concept of the founding run gets a version too, with a stamp of its own. -/
def sequel : List Operation :=
  [.append ⟨1⟩ (foundingStamp ⟨35⟩) []]

/-- The semantic of the founding run can be recorded. -/
theorem recordable_sequel :
    ∃ h, (empty.run (founding ++ sequel)).history ⟨2⟩ = .ok h ∧ h.committed.length = 2 ∧
      (empty.run (founding ++ sequel)).Recordable h := by
  obtain ⟨h, hh, hlength, hnid, hshape, hoctets⟩ :
      ∃ h, (empty.run (founding ++ sequel)).history ⟨2⟩ = .ok h ∧ h.committed.length = 2 ∧
        h.nid = ⟨2⟩ ∧ h.shape = .semantic ⟨1⟩ ⟨1⟩ ∧
        ∀ v ∈ h.committed, v.payload.octets.length < UInt32.size :=
    ⟨_, by cbv, by cbv, by cbv, by cbv, by decide⟩
  have hu : (empty.run (founding ++ sequel)).identities.uuidsOf ⟨2⟩ = .ok [.uniform 2] := by cbv
  have hschema : (empty.run (founding ++ sequel)).schemaOf? (.semantic ⟨1⟩ ⟨1⟩) =
      some ⟨#[.nid]⟩ := by cbv
  refine ⟨h, hh, hlength, fun hu' => ?_, fun hschema' => ?_, by rw [hlength]; decide, hoctets⟩
  · rw [hnid, hu] at hu'
    rw [← Except.ok.inj hu']
    decide
  · rw [hshape, hschema] at hschema'
    rw [← Option.some.inj hschema']
    decide

theorem exported_tells_of_sequel :
    (∀ op ∈ founding ++ sequel, op ≠ .toIdentities .reset) ∧ ∃ h octets r,
      (empty.run (founding ++ sequel)).history ⟨2⟩ = .ok h ∧ h.committed.length = 2 ∧
      (empty.run (founding ++ sequel)).exportHistory ⟨2⟩ = .ok octets ∧
      Record.History.decode octets = .ok r ∧ (empty.run (founding ++ sequel)).Tells ⟨2⟩ h r := by
  have hops : ∀ op ∈ founding ++ sequel, op ≠ .toIdentities .reset := by simp [founding, sequel]
  obtain ⟨h, hh, hlength, hrecordable⟩ := recordable_sequel
  obtain ⟨-, octets, hexport, htells⟩ := exported_tells_iff hops hh
  obtain ⟨r, hr, hall⟩ := htells.2 hrecordable
  exact ⟨hops, h, octets, r, hh, hlength, hexport, hr, hall⟩

/-- A semantic of an assemblage that is declared with a schema. -/
def declaring (schema : Schema) : List Operation :=
  [.create [.uniform 1] .concept, .defineAssemblage ⟨1⟩ schema,
    .create [.uniform 2] (.semantic ⟨1⟩ ⟨1⟩)]

/-- Nothing says all of a semantic whose schema has more fields than can be counted. -/
theorem declaring_export_is_lost {schema : Schema} (hwide : UInt16.size ≤ schema.arity) :
    ∃ h octets, (empty.run (declaring schema)).history ⟨2⟩ = .ok h ∧
      (empty.run (declaring schema)).exportHistory ⟨2⟩ = .ok octets ∧
      ¬∃ r, Record.History.decode octets = .ok r ∧
        (empty.run (declaring schema)).Tells ⟨2⟩ h r := by
  have hget : (empty.run (declaring schema)).histories.get? ⟨2⟩ =
      some { nid := ⟨2⟩, shape := .semantic ⟨1⟩ ⟨1⟩ } := rfl
  have hschema : (empty.run (declaring schema)).schemas.get? ⟨1⟩ = some schema := rfl
  have hd : (empty.run (declaring schema)).Described (.semantic ⟨1⟩ ⟨1⟩) := by
    rintro _ ⟨⟩
    exact ⟨schema, hschema⟩
  have hu : (empty.run (declaring schema)).identities.uuidsOf ⟨2⟩ = .ok [.uniform 2] := rfl
  have hexport := exportHistory_eq_map (h := ⟨⟨2⟩, .semantic ⟨1⟩ ⟨1⟩, [], []⟩) hd hget
  rw [hu] at hexport
  refine ⟨_, _, history_eq_ok_iff.2 hget, hexport, fun hr => ?_⟩
  have hrecordable := (tells_iff_recordable hd rfl hu).1 hr
  exact absurd (hrecordable.fields hschema) (Nat.not_lt.2 hwide)

theorem wide_export_is_lost :
    let s := empty.run (declaring ⟨Array.replicate 65536 .nid⟩)
    ∃ h octets, s.history ⟨2⟩ = .ok h ∧ s.exportHistory ⟨2⟩ = .ok octets ∧
      ¬∃ r, Record.History.decode octets = .ok r ∧ s.Tells ⟨2⟩ h r :=
  declaring_export_is_lost (by rw [Schema.arity, Array.size_replicate])

end Bitemporal.Store
