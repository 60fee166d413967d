import Bitemporal.Field
import Bitemporal.Record.Envelope
import Bitemporal.Stamp

/-!
# The record of a component

The identity of a component and its committed versions. A version names its
stamp by number only, so a record is read next to the record of stamps that it
was written with.

The record of a semantic has a header that names the assemblage, the component
that the semantic is about, and the field types of the assemblage. The header is
written wherever it is given, and read if the kind is that of a semantic.
-/

namespace Bitemporal.Record

/-- What the record of a semantic says besides. -/
structure SemanticHeader where
  /-- The assemblage of the semantic. -/
  assemblage : Nid
  /-- The component that it is about. -/
  referenced : Nid
  /-- The field types of the assemblage. -/
  fields : List FieldType
deriving DecidableEq, Repr, Inhabited

/-- A committed version. -/
structure VersionRow where
  /-- The number of its stamp. -/
  seq : StampSeq
  /-- Its encoded fields, none for a concept. -/
  payload : List UInt8
deriving DecidableEq, Repr, Inhabited

/-- A component with its committed versions. -/
structure History where
  /-- The number of the component. -/
  nid : Nid
  /-- Its kind. -/
  kind : Kind
  /-- Its identifiers. -/
  uuids : List Uuid
  /-- The header of a semantic. -/
  semantic : Option SemanticHeader
  /-- The versions, in the order of their commits. -/
  versions : List VersionRow
deriving DecidableEq, Repr

namespace SemanticHeader

/-- The octets of a header. -/
def encode (h : SemanticHeader) : List UInt8 :=
  LittleEndian.ofInt32 h.assemblage.val ++ LittleEndian.ofInt32 h.referenced.val ++
    LittleEndian.octets 2 h.fields.length ++ h.fields.map FieldType.tag

/-- Reads a header. -/
def read : Reader Fault SemanticHeader := do
  let assemblage ← readNid
  let referenced ← readNid
  let count ← Reader.uint16
  let fields ← Reader.times count.toNat (readTag .fieldType FieldType.ofTag?)
  return { assemblage, referenced, fields }

end SemanticHeader

namespace VersionRow

/-- The octets of a version. -/
def encode (v : VersionRow) : List UInt8 :=
  LittleEndian.ofUInt32 v.seq.val ++ LittleEndian.octets 4 v.payload.length ++ v.payload

/-- Reads a version. -/
def read : Reader Fault VersionRow := do
  let seq ← Reader.uint32
  let length ← Reader.uint32
  let payload ← Reader.take length.toNat
  return { seq := ⟨seq⟩, payload }

end VersionRow

/-- Reads an identifier. -/
def readUuid : Reader Fault Uuid := do
  match Uuid.ofOctets? (← Reader.take 16) with
  | some uuid => return uuid
  | none => throw .tooShort

namespace History

/-- The octets of the body of a record. The counts are written to as many octets
    as the format gives them. -/
def body (r : History) : List UInt8 :=
  LittleEndian.ofInt32 r.nid.val ++ r.kind.tag ::
    (LittleEndian.octets 2 r.uuids.length ++ r.uuids.flatMap Uuid.octets ++
      (r.semantic.elim [] SemanticHeader.encode) ++
      LittleEndian.octets 4 r.versions.length ++ r.versions.flatMap VersionRow.encode)

/-- The octets of a record. -/
def encode (r : History) : List UInt8 :=
  wrap historyMagic r.body

/-- Reads the header that records of a kind have. -/
def readHeader : Kind → Reader Fault (Option SemanticHeader)
  | .concept => return none
  | .semantic => return some (← SemanticHeader.read)

/-- Reads the body of a record. -/
def read : Reader Fault History := do
  let nid ← readNid
  let kind ← readTag .kind Kind.ofTag?
  let uuidCount ← Reader.uint16
  let uuids ← Reader.times uuidCount.toNat readUuid
  let semantic ← readHeader kind
  let versionCount ← Reader.uint32
  let versions ← Reader.times versionCount.toNat VersionRow.read
  return { nid, kind, uuids, semantic, versions }

/-- The record that octets encode. -/
def decode (octets : List UInt8) : Except Fault History :=
  unwrap historyMagic read octets

end History

end Bitemporal.Record
