import Bitemporal.Proofs.Record.Codec
import Bitemporal.Proofs.Store.Tables

/-!
# Imports that are refused

A record is checked against the store before anything of it is installed. What it says
of identifiers is not: it is for the identities to accept or to refuse, and they are
asked when the schema of the record has been declared.

So a refused import leaves no trace unless it is the identities that refuse. If they do,
the store may be left with a schema that was not declared before, and with a counter that
has been moved; but with nothing else (`Store.refused_import_leaves`). Both happens
(`Store.refused_import_declares`).
-/

namespace Bitemporal

namespace Store

variable {s : Store} {octets : List UInt8} {e : Error}

/-- Identities that refuse a mapping have moved their counter at most. -/
theorem restore_refused {ids ids' : Identities} {nid : Nid} {uuids : List Uuid} {kind : Kind}
    (hk : ids.KindsKnown) (h : ids.Restored nid uuids kind (.error e) ids') :
    ∃ next, ids' = { ids with next } := by
  cases h with
  | refused hb => exact ⟨ids.next, rfl⟩
  | @contradicted _ bound hb hkind =>
    rcases Identities.restoreUuids_eq_ok hb with ⟨-, rfl⟩ | ⟨-, hfree, rfl⟩
    · exact ⟨_, rfl⟩
    · -- identifiers that have just been bound have no kind that could be contradicted
      have hc : ((ids.bind nid uuids).movePast nid).contains nid = true :=
        Identities.contains_bind_self
      rw [Identities.registerKind_of_unknown hc (hk nid hfree)] at hkind
      cases hkind

/-- At most one assemblage is declared that was not. -/
theorem schemasWith_cases (s : Store) (shape : Shape) (schema : Option Schema) :
    s.schemasWith shape schema = s.schemas ∨ ∃ assemblage declared,
      s.schemas.get? assemblage = none ∧
      s.schemasWith shape schema = s.schemas.insert assemblage declared := by
  unfold schemasWith
  split
  · split
    · exact .inl rfl
    · next hnone => exact .inr ⟨_, _, hnone, rfl⟩
  · exact .inl rfl

/-- Nothing is left of a record that is refused, unless its history was accepted and it is
    the identities that refuse what it says. In any case, no more is left than the schema of
    an assemblage that had none, and a counter that has been moved. -/
theorem refused_import_leaves (hs : s.Reachable)
    (himport : ((importHistory octets).perform s).1 = .error e) :
    ((∀ r h schema, Record.History.decode octets = .ok r →
        s.recordedHistory r = .ok (h, schema) →
        (s.identities.restore r.nid r.uuids r.kind).1 ≠ .error e) →
      ((importHistory octets).perform s).2 = s) ∧
    ∃ next schemas, ((importHistory octets).perform s).2 =
        { s with identities := { s.identities with next }, schemas } ∧
      (schemas = s.schemas ∨ ∃ assemblage schema, s.schemas.get? assemblage = none ∧
        schemas = s.schemas.insert assemblage schema) := by
  have hi := imported s octets
  rw [himport] at hi
  generalize ((importHistory octets).perform s).2 = t at hi ⊢
  cases hi with
  | refused => exact ⟨fun _ => rfl, _, _, rfl, .inl rfl⟩
  | @contradicted _ r h schema identities hd hr hres =>
    have hrestored := Identities.restored s.identities r.nid r.uuids r.kind
    rw [hres] at hrestored
    refine ⟨fun hother => ?_, ?_⟩
    · exact absurd (congrArg Prod.fst hres) (hother r h schema hd hr)
    · obtain ⟨next, rfl⟩ := restore_refused (kindsKnown_of_reachable hs) hrestored
      exact ⟨next, _, rfl, schemasWith_cases s h.shape schema⟩

/-! ### Two refused records -/

/-- A semantic without versions, of an assemblage under the number 1. -/
def semanticRecord (uuid : Uuid) (versions : List Record.VersionRow) : Record.History where
  nid := ⟨2⟩
  kind := .semantic
  uuids := [uuid]
  semantic := some { assemblage := ⟨1⟩, referenced := ⟨1⟩, fields := [.nid] }
  versions

theorem decode_semanticRecord (uuid : Uuid) {versions : List Record.VersionRow}
    (hversions : versions.length < UInt32.size)
    (hpayloads : ∀ row ∈ versions, row.payload.length < UInt32.size) :
    Record.History.decode (semanticRecord uuid versions).encode =
      .ok (semanticRecord uuid versions) := by
  have hone : 1 < UInt16.size := by decide
  refine Record.History.decode_eq_ok_iff.2
    ⟨⟨hone, iff_of_true rfl rfl, ?_, hversions, hpayloads⟩, rfl⟩
  rintro _ ⟨⟩
  exact hone

/-- A record that names a stamp that is not interned is refused without a trace. -/
theorem refused_import_leaves_nothing :
    let s := empty.run [.create [.uniform 1] .concept]
    let octets := (semanticRecord (.uniform 2) [⟨⟨9⟩, []⟩]).encode
    ((importHistory octets).perform s).1 = .error (.unknownStampSeq ⟨9⟩) ∧
      ((importHistory octets).perform s).2 = s := by
  intro s octets
  have hd : Record.History.decode octets = .ok (semanticRecord (.uniform 2) [⟨⟨9⟩, []⟩]) :=
    decode_semanticRecord _ (by decide) (by decide)
  have himport : ((importHistory octets).perform s).1 = .error (.unknownStampSeq ⟨9⟩) := by
    rw [importHistory, hd]
    rfl
  refine ⟨himport, (refused_import_leaves ⟨_, rfl⟩ himport).1 fun r h schema hr _ => ?_⟩
  obtain rfl := Except.ok.inj (hd.symm.trans hr)
  have haccepted : (s.identities.restore ⟨2⟩ [.uniform 2] .semantic).1 = .ok ⟨0⟩ := rfl
  intro hrefused
  cases haccepted.symm.trans hrefused

/-- The schema of a record that the identities refuse is declared. -/
theorem refused_import_declares :
    let s := empty.run [.create [.uniform 1] .concept]
    let octets := (semanticRecord (.uniform 1) []).encode
    ((importHistory octets).perform s).1 =
        .error (.invalidOperation (.uuidsTaken ⟨2⟩ ⟨1⟩)) ∧
      s.schema ⟨1⟩ = .error (.unknownAssemblage ⟨1⟩) ∧
      ((importHistory octets).perform s).2.schema ⟨1⟩ = .ok ⟨#[.nid]⟩ := by
  intro s octets
  have hd : Record.History.decode octets = .ok (semanticRecord (.uniform 1) []) :=
    decode_semanticRecord _ (by decide) (by decide)
  rw [importHistory, hd]
  exact ⟨rfl, rfl, rfl⟩

end Store

end Bitemporal
