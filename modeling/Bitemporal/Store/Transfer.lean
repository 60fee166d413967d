import Bitemporal.Record.History
import Bitemporal.Store.Components

/-!
# Export and import

A store is carried over to another one as the record of its stamps and a record
for each component. A record is checked against the store before anything of it
is installed: the component must be new, its header must agree with what is
declared, and every version must name a stamp that is interned, carry fields that
fit the schema, and keep the order of commits.

Drafts are not exported.
-/

namespace Bitemporal.Store

/-! ## Export -/

/-- The octets of the record of all stamps. -/
def exportStamps (s : Store) : List UInt8 :=
  Record.encodeStamps s.stamps.rows

/-- The header of the record of a component. -/
def exportHeader (s : Store) : Shape → Except Error (Option Record.SemanticHeader)
  | .concept => .ok none
  | .semantic assemblage referenced => do
    let schema ← s.schema assemblage
    return some { assemblage, referenced, fields := schema.types.toList }

/-- The record of a component. -/
def recordOf (s : Store) (nid : Nid) : Except Error Record.History := do
  let h ← s.history nid
  let semantic ← s.exportHeader h.shape
  let uuids ← s.identities.uuidsOf nid
  return { nid, kind := h.shape.kind, uuids, semantic
           versions := h.committed.map fun v => { seq := v.seq, payload := v.payload.octets } }

/-- The octets of the record of a component. -/
def exportHistory (s : Store) (nid : Nid) : Except Error (List UInt8) :=
  (s.recordOf nid).map Record.History.encode

/-! ## Import -/

/-- Refills the stamps from a record. -/
def importStamps (octets : List UInt8) : Action Unit := do
  match Record.decodeStamps octets with
  | .error fault => throw (.corruption (.badRecord fault))
  | .ok rows =>
    let s ← get
    let (answer, stamps) := s.stamps.restore rows
    set { s with stamps }
    answer

/-- The shape that a record gives its component, with the schema of the fields
    if there are fields. -/
def recordedShape (s : Store) (r : Record.History) : Except Error (Shape × Option Schema) :=
  match r.kind, r.semantic with
  | .concept, none => .ok (.concept, none)
  | .semantic, some header =>
    let declared : Schema := ⟨header.fields.toArray⟩
    let shape : Shape := .semantic header.assemblage header.referenced
    match s.schemas.get? header.assemblage with
    | none => .ok (shape, some declared)
    | some held =>
      if held = declared then .ok (shape, some held)
      else .error (.invalidOperation (.otherSchema header.assemblage))
  | kind, _ => .error (.corruption (.headerMismatch r.nid kind))

/-- What a recorded version carries. -/
def recordedPayload (nid : Nid) (schema : Option Schema) (octets : List UInt8) :
    Except Error Payload :=
  match schema with
  | none => if octets.isEmpty then .ok .bare else .error (.corruption (.conceptFields nid))
  | some schema => (FieldTuple.ofOctets schema octets).map .fields

/-- The history with recorded versions at its end. -/
def replay (stamps : StampTable) (schema : Option Schema) (h : History) :
    List Record.VersionRow → Except Error History
  | [] => .ok h
  | row :: rest => do
    let stamp ← stamps.stamp row.seq
    let payload ← recordedPayload h.nid schema row.payload
    let (_, h) ← h.appendCommitted { stamp, seq := row.seq, payload }
    replay stamps schema h rest

/-- The history that a record describes, and the schema of its fields. -/
def recordedHistory (s : Store) (r : Record.History) : Except Error (History × Option Schema) := do
  if r.uuids.isEmpty then throw (.corruption (.noUuids r.nid))
  if s.contains r.nid then throw (.invalidOperation (.alreadyPresent r.nid))
  let (shape, schema) ← s.recordedShape r
  let h ← replay s.stamps schema { nid := r.nid, shape } r.versions
  return (h, schema)

/-- Declares the schema of the assemblage of a semantic. -/
def installRecorded (shape : Shape) (schema : Option Schema) : Action Unit := do
  match shape.assemblage?, schema with
  | some assemblage, some schema => let _ ← installSchema assemblage schema
  | _, _ => return ()

/-- Installs identifiers and kind of a recorded component. -/
def restoreIdentity (r : Record.History) : Action SequenceNumber := do
  let s ← get
  let (answer, identities) := s.identities.restore r.nid r.uuids r.kind
  set { s with identities }
  answer

/-- Installs the component of a record. -/
def importHistory (octets : List UInt8) : Action Nid := do
  match Record.History.decode octets with
  | .error fault => throw (.corruption (.badRecord fault))
  | .ok r =>
    -- up to here, and while the history is replayed, nothing of the store is changed
    let (h, schema) ← (← get).recordedHistory r
    installRecorded h.shape schema
    let _ ← restoreIdentity r
    modify fun s =>
      { s with histories := s.histories.insert r.nid h, index := s.index.fileHistory h }
    return r.nid

end Bitemporal.Store
