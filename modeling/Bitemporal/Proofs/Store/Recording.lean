import Bitemporal.Proofs.Record.Codec
import Bitemporal.Proofs.Store.Soundness

/-!
# Records of components

The record of a component says what its history does, but for the drafts, next to its
identifiers and the schema of its assemblage (`Store.recordWith`). All that is needed for it
are the identifiers and the schema (`exportHistory_eq_map`). The format gives each count of
the record so many octets, and the record fits if the counts of the component are small
enough for them (`fits_recordWith_iff`).

A store that takes in the record gives the component the same shape, or it refuses the
record (`recordedShape_recordWith_iff`); and it gives it the same versions if their numbers
stand for the same stamps there (`replay_recordWith`).
-/

namespace Bitemporal.Store

variable {s t : Store} {n : Nid} {h : History} {shape : Shape} {uuids : List Uuid}

/-- The schema of the fields that versions of a shape carry. -/
def schemaOf? (s : Store) (shape : Shape) : Option Schema :=
  shape.assemblage?.bind fun assemblage => s.schemas.get? assemblage

/-- The header of the record of a component of a shape. -/
def headerOf? (s : Store) : Shape → Option Record.SemanticHeader
  | .concept => none
  | .semantic assemblage referenced => (s.schemas.get? assemblage).map fun schema =>
    { assemblage, referenced, fields := schema.types.toList }

/-- The record of a component with a history and identifiers. -/
def recordWith (s : Store) (h : History) (uuids : List Uuid) : Record.History where
  nid := h.nid
  kind := h.shape.kind
  uuids
  semantic := s.headerOf? h.shape
  versions := h.committed.map versionRow

/-! ## Writing -/

theorem exportHeader_eq (hd : s.Described shape) :
    s.exportHeader shape = .ok (s.headerOf? shape) := by
  cases shape with
  | concept => rfl
  | semantic assemblage referenced =>
    obtain ⟨schema, hg⟩ := hd assemblage rfl
    rw [exportHeader, schema_eq_ok_iff.2 hg, headerOf?, hg]
    rfl

theorem exportHistory_eq_map (hd : s.Described h.shape) (hget : s.histories.get? h.nid = some h) :
    s.exportHistory h.nid =
      (s.identities.uuidsOf h.nid).map fun uuids => (s.recordWith h uuids).encode := by
  rw [exportHistory, recordOf, history_eq_ok_iff.2 hget]
  show Except.map _ (s.exportHeader h.shape >>= _) = _
  rw [exportHeader_eq hd]
  cases s.identities.uuidsOf h.nid with
  | error e => rfl
  | ok uuids => rfl

theorem exportHistory_eq_ok {octets : List UInt8} (hd : s.Described h.shape)
    (hget : s.histories.get? h.nid = some h) (hx : s.exportHistory h.nid = .ok octets) :
    ∃ uuids, s.identities.uuidsOf h.nid = .ok uuids ∧ octets = (s.recordWith h uuids).encode := by
  rw [exportHistory_eq_map hd hget] at hx
  cases hu : s.identities.uuidsOf h.nid with
  | error e =>
    rw [hu] at hx
    cases hx
  | ok uuids =>
    rw [hu] at hx
    exact ⟨uuids, rfl, (Except.ok.inj hx).symm⟩

/-- Whatever is counted in the record of a component is few enough to be counted there. -/
structure Recordable (s : Store) (h : History) : Prop where
  uuids : ∀ {uuids}, s.identities.uuidsOf h.nid = .ok uuids → uuids.length < UInt16.size
  fields : ∀ {schema}, s.schemaOf? h.shape = some schema → schema.arity < UInt16.size
  versions : h.committed.length < UInt32.size
  payloads : ∀ v ∈ h.committed, v.payload.octets.length < UInt32.size

theorem semantic_headerOf?_iff (hd : s.Described shape) :
    shape.kind = .semantic ↔ (s.headerOf? shape).isSome := by
  cases shape with
  | concept => simp [headerOf?, Shape.kind]
  | semantic assemblage referenced =>
    obtain ⟨schema, hg⟩ := hd assemblage rfl
    simp [headerOf?, Shape.kind, hg]

theorem length_fields_lt_iff {bound : Nat} :
    (∀ header ∈ s.headerOf? shape, header.fields.length < bound) ↔
      ∀ {schema}, s.schemaOf? shape = some schema → schema.arity < bound := by
  cases shape with
  | concept => simp [headerOf?, schemaOf?, Shape.assemblage?]
  | semantic assemblage referenced =>
    simp [headerOf?, schemaOf?, Shape.assemblage?, Schema.arity]

/-- The record of a component fits if all that it counts is few enough. -/
theorem fits_recordWith_iff (hd : s.Described h.shape)
    (hu : s.identities.uuidsOf h.nid = .ok uuids) :
    (s.recordWith h uuids).Fits ↔ s.Recordable h := by
  constructor
  · rintro ⟨huuids, -, hfields, hversions, hpayloads⟩
    refine ⟨fun hu' => ?_, length_fields_lt_iff.1 hfields, ?_, fun v hv => ?_⟩
    · obtain rfl := Except.ok.inj (hu.symm.trans hu')
      exact huuids
    · rwa [recordWith, List.length_map] at hversions
    · exact hpayloads _ (List.mem_map_of_mem hv)
  · rintro ⟨huuids, hfields, hversions, hpayloads⟩
    refine ⟨huuids hu, semantic_headerOf?_iff hd, length_fields_lt_iff.2 hfields, ?_, ?_⟩
    · rwa [recordWith, List.length_map]
    · intro row hrow
      obtain ⟨v, hv, rfl⟩ := List.mem_map.1 hrow
      exact hpayloads v hv

/-! ## Taking in -/

/-- A record is of the shape of its component in a store that knows of no other schema. -/
theorem recordedShape_recordWith_iff (hd : s.Described h.shape) {p : Shape × Option Schema} :
    t.recordedShape (s.recordWith h uuids) = .ok p ↔
      p = (h.shape, s.schemaOf? h.shape) ∧ ∀ a, h.shape.assemblage? = some a →
        t.schemas.get? a = none ∨ t.schemas.get? a = s.schemas.get? a := by
  cases hshape : h.shape with
  | concept =>
    simp [recordedShape, recordWith, hshape, headerOf?, Shape.kind, schemaOf?, Shape.assemblage?,
      eq_comm]
  | semantic assemblage referenced =>
    obtain ⟨schema, hg⟩ := hd assemblage (by rw [hshape]; rfl)
    cases ht : t.schemas.get? assemblage with
    | none =>
      simp [recordedShape, recordWith, hshape, headerOf?, Shape.kind, schemaOf?,
        Shape.assemblage?, hg, ht, eq_comm]
    | some held =>
      by_cases hheld : held = schema
      · simp [recordedShape, recordWith, hshape, headerOf?, Shape.kind, schemaOf?,
          Shape.assemblage?, hg, ht, hheld, eq_comm]
      · simp [recordedShape, recordWith, hshape, headerOf?, Shape.kind, schemaOf?,
          Shape.assemblage?, hg, ht, hheld]

theorem recordedPayload_of_declares {payload : Payload} (hd : s.Declares shape payload) :
    recordedPayload n (s.schemaOf? shape) payload.octets = .ok payload := by
  cases shape with
  | concept =>
    obtain rfl : payload = .bare := hd
    rfl
  | semantic assemblage referenced =>
    obtain ⟨schema, tuple, hg, rfl, hfits⟩ := hd
    have hschema : s.schemaOf? (.semantic assemblage referenced) = some schema := hg
    rw [hschema]
    show (FieldTuple.ofOctets schema tuple.octets.toList).map Payload.fields = _
    rw [hfits]
    rfl

/-- The history of the same component without its drafts. -/
def withoutDrafts (h : History) : History :=
  committedHistory h.nid h.shape h.committed

/-- The versions are replayed where their numbers stand for their stamps. -/
theorem replay_recordWith {stamps : StampTable}
    (hdeclared : ∀ v ∈ h.committed, s.Declares h.shape v.payload)
    (hin : History.InOrder h.committed)
    (hstamps : ∀ v ∈ h.committed, stamps.stamp v.seq = .ok v.stamp) :
    replay stamps (s.schemaOf? h.shape) { nid := h.nid, shape := h.shape }
      (h.committed.map versionRow) = .ok (withoutDrafts h) :=
  replay_rows hstamps (fun v hv => recordedPayload_of_declares (hdeclared v hv)) hin

end Bitemporal.Store
