import Bitemporal.Proofs.Identities.Consistency
import Bitemporal.Proofs.StampTable
import Bitemporal.Proofs.Store.Outcomes
import Bitemporal.Proofs.Table

/-!
# The tables that components share

The histories of a store rest on its tables: on the identities and kinds of components,
on the stamps that are interned, and on the schemas of assemblages. What a history rests
on stays, since operations only let the tables grow (`Store.TablesGrow`), however they
end.

There are three exceptions. The store may be reset; the identities or the stamps may be
reset behind the back of the store; and so may be a number handed out for an identifier
that is known already. The last two are no *regular* operations (`Operation.Regular`).
-/

namespace Bitemporal.Store

open Bitemporal.Store.Action

variable {s t u : Store}

/-- The tables of a store grow. -/
structure TablesGrow (s t : Store) : Prop where
  identities : s.identities.Upgrades t.identities
  stamps : s.stamps.GrowsTo t.stamps
  schemas : ∀ {assemblage schema}, s.schemas.get? assemblage = some schema →
    t.schemas.get? assemblage = some schema

namespace TablesGrow

theorem of_identities (hi : s.identities.Upgrades t.identities) (hs : t.stamps = s.stamps)
    (hd : t.schemas = s.schemas) : s.TablesGrow t := by
  refine ⟨hi, ?_, fun h => ?_⟩
  · rw [hs]
    exact .refl _
  · rwa [hd]

theorem of_stamps (hi : t.identities = s.identities) (hs : s.stamps.GrowsTo t.stamps)
    (hd : t.schemas = s.schemas) : s.TablesGrow t := by
  refine ⟨?_, hs, fun h => ?_⟩
  · rw [hi]
    exact .refl _
  · rwa [hd]

theorem of_eq (hi : t.identities = s.identities) (hs : t.stamps = s.stamps)
    (hd : t.schemas = s.schemas) : s.TablesGrow t := by
  refine of_stamps hi ?_ hd
  rw [hs]
  exact .refl _

theorem refl (s : Store) : s.TablesGrow s :=
  of_eq rfl rfl rfl

theorem trans (h : s.TablesGrow t) (h' : t.TablesGrow u) : s.TablesGrow u :=
  ⟨h.identities.trans h'.identities, h.stamps.trans h'.stamps, fun hg => h'.schemas (h.schemas hg)⟩

end TablesGrow

/-! ## Actions -/

theorem Appended.tablesGrow {nid : Nid} {stamp : Stamp} {values : List FieldValue}
    {answer : Except Error Handle} (h : s.Appended nid stamp values answer t) : s.TablesGrow t := by
  cases h with
  | refused e => exact .refl s
  | drafted hg hp hu => exact .of_eq rfl rfl rfl
  | committed hg hp hu ho hi => exact .of_stamps rfl (StampTable.growsTo_intern hi) rfl

theorem Updated.tablesGrow {handle : Handle} {values : List FieldValue} {answer : Except Error Unit}
    (h : s.Updated handle values answer t) : s.TablesGrow t := by
  cases h with
  | refused e => exact .refl s
  | replaced hg hp hd => exact .of_eq rfl rfl rfl

theorem Committed.tablesGrow {handle : Handle} {time : Timestamp} {answer : Except Error StampSeq}
    (h : s.Committed handle time answer t) : s.TablesGrow t := by
  cases h with
  | refused e => exact .refl s
  | committed ht hg hd ho hi => exact .of_stamps rfl (StampTable.growsTo_intern hi) rfl

theorem Registered.upgrades {uuids : List Uuid} {shape : Shape} {nid : Nid}
    {identities : Identities} (h : s.Registered uuids shape nid identities) :
    s.identities.Upgrades identities := by
  obtain ⟨numbered, seq, hn, hk⟩ := h.registered
  exact (Identities.upgrades_nidFor hn).trans (Identities.upgrades_registerKind hk)

theorem Created.tablesGrow {uuids : List Uuid} {shape : Shape} {answer : Except Error Nid}
    (h : s.Created uuids shape answer t) : s.TablesGrow t := by
  cases h with
  | refused e => exact .refl s
  | unregistered hn hk => exact .of_identities (Identities.upgrades_nidFor hn) rfl rfl
  | found hr hg hs => exact .of_identities hr.upgrades rfl rfl
  | contradicted hr hg hs => exact .of_identities hr.upgrades rfl rfl
  | made hr hg => exact .of_identities hr.upgrades rfl rfl

theorem get?_schemasWith {shape : Shape} {schema : Option Schema} {assemblage : Nid}
    {declared : Schema} (h : s.schemas.get? assemblage = some declared) :
    (s.schemasWith shape schema).get? assemblage = some declared := by
  unfold schemasWith
  split
  · next a _ added =>
    split
    · exact h
    · next hnone => exact Table.get?_insert_of_absent hnone h
  · exact h

theorem Imported.tablesGrow {octets : List UInt8} {answer : Except Error Nid}
    (h : s.Imported octets answer t) : s.TablesGrow t := by
  have hidentities {r : Record.History} {restored} {identities : Identities}
      (hi : s.identities.restore r.nid r.uuids r.kind = (restored, identities)) :
      s.identities.Upgrades identities := by
    have hr := (Identities.restored s.identities r.nid r.uuids r.kind).upgrades
    rwa [hi] at hr
  cases h with
  | refused e => exact .refl s
  | contradicted hd hr hi => exact ⟨hidentities hi, .refl _, get?_schemasWith⟩
  | installed hd hr hi => exact ⟨hidentities hi, .refl _, get?_schemasWith⟩

theorem tablesGrow_defineAssemblage (s : Store) (assemblage : Nid) (schema : Schema) :
    s.TablesGrow ((defineAssemblage assemblage schema).perform s).2 := by
  rcases after_defineAssemblage s assemblage schema with h | ⟨hnone, h⟩
  · rw [h]
    exact .refl s
  · rw [h]
    exact ⟨.refl _, .refl _, fun hg => Table.get?_insert_of_absent hnone hg⟩

theorem tablesGrow_declarePath (s : Store) (path : Nid) (origins : List Origin) :
    s.TablesGrow ((declarePath path origins).perform s).2 := by
  obtain ⟨lineage, h⟩ := after_declarePath s path origins
  rw [h]
  exact .of_eq rfl rfl rfl

theorem tablesGrow_createPath (s : Store) (fresh : Uuid) (origins : List Origin) :
    s.TablesGrow ((createPath fresh origins).perform s).2 := by
  have hc := (created s [fresh] .concept).tablesGrow
  rcases after_createPath s fresh origins with h | ⟨path, h⟩
  · rwa [h]
  · rw [h]
    exact hc.trans (tablesGrow_declarePath _ path origins)

theorem tablesGrow_importStamps (s : Store) (octets : List UInt8) :
    s.TablesGrow ((importStamps octets).perform s).2 := by
  rcases after_importStamps s octets with h | ⟨rows, h⟩
  · rw [h]
    exact .refl s
  · rw [h]
    exact .of_stamps rfl (StampTable.growsTo_restore s.stamps rows) rfl

/-! ## Operations -/

/-- Neither are identities or stamps reset alone, nor is a number handed out for an
    identifier that is known. -/
def Operation.Regular (s : Store) : Operation → Prop
  | .toIdentities request => request.Regular s.identities
  | .toStamps request => request ≠ .reset
  | _ => True

theorem Operation.Regular.tablesGrow {op : Operation} (h : op.Regular s) (hop : op ≠ .reset) :
    s.TablesGrow (op.after s) := by
  rw [after, perform]
  cases op with
  | create uuids shape => simpa [action] using (created s uuids shape).tablesGrow
  | createPath fresh origins => simpa [action] using tablesGrow_createPath s fresh origins
  | defineAssemblage assemblage schema =>
    simpa [action] using tablesGrow_defineAssemblage s assemblage schema
  | declarePath path origins => simpa [action] using tablesGrow_declarePath s path origins
  | append nid stamp values => simpa [action] using (appended s nid stamp values).tablesGrow
  | updateDraft handle values => simpa [action] using (updated s handle values).tablesGrow
  | commit handle time => simpa [action] using (committed s handle time).tablesGrow
  | importStamps octets => simpa [action] using tablesGrow_importStamps s octets
  | importHistory octets => simpa [action] using (imported s octets).tablesGrow
  | rebuildIndex => exact .of_eq rfl rfl rfl
  | reset => exact absurd rfl hop
  | toIdentities request => exact .of_identities (Identities.Operation.Regular.upgrades h) rfl rfl
  | toStamps request => exact .of_stamps rfl (StampTable.growsTo_after h s.stamps) rfl
  | toLineage request => exact .of_eq rfl rfl rfl

/-! ## What only a reset takes back -/

/-- A schema stays declared, whatever is done to the identities and the stamps alone. -/
theorem Operation.schemas_after {op : Operation} (hop : op ≠ .reset) {assemblage : Nid}
    {schema : Schema} (hg : s.schemas.get? assemblage = some schema) :
    (op.after s).schemas.get? assemblage = some schema := by
  have hgrow (hr : op.Regular s) := (hr.tablesGrow hop).schemas hg
  cases op with
  | toIdentities request => exact hg
  | toStamps request => exact hg
  | _ => exact hgrow trivial

/-- Identities grow, whatever is done to the stamps alone. -/
theorem Operation.growsTo_identities {op : Operation} (hop : op ≠ .reset)
    (hids : op ≠ .toIdentities .reset) (s : Store) :
    s.identities.GrowsTo (op.after s).identities := by
  have hgrow (hr : op.Regular s) := (hr.tablesGrow hop).identities.toGrowsTo
  cases op with
  | toIdentities request =>
    exact Identities.growsTo_after (fun e => hids (congrArg toIdentities e)) s.identities
  | toStamps request => exact .refl s.identities
  | _ => exact hgrow trivial

/-- Stamps grow, whatever is done to the identities alone. -/
theorem Operation.growsTo_stamps {op : Operation} (hop : op ≠ .reset)
    (hstamps : op ≠ .toStamps .reset) (s : Store) : s.stamps.GrowsTo (op.after s).stamps := by
  have hgrow (hr : op.Regular s) := (hr.tablesGrow hop).stamps
  cases op with
  | toIdentities request => exact .refl s.stamps
  | toStamps request =>
    exact StampTable.growsTo_after (fun e => hstamps (congrArg toStamps e)) s.stamps
  | _ => exact hgrow trivial

/-- Whatever was done, kinds are known of numbers in use only. -/
theorem kindsKnown_of_reachable (hs : s.Reachable) : s.identities.KindsKnown := by
  refine Reachable.induction (P := fun t => t.identities.KindsKnown) hs
    Identities.kindsKnown_empty fun op t ht => ?_
  by_cases hreset : op = .reset
  · subst hreset
    exact Identities.kindsKnown_empty
  by_cases hids : op = .toIdentities .reset
  · subst hids
    exact Identities.kindsKnown_empty
  exact (op.growsTo_identities hreset hids t).kindsKnown ht

end Bitemporal.Store
