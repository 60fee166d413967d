import Bitemporal.Digits

/-!
# Faults of export records

Why a string of octets is not a record.
-/

namespace Bitemporal.Record

/-- The choices that a record writes as a tag. -/
inductive Choice where
  | status
  | kind
  | fieldType
deriving DecidableEq, Repr

/-- The words for a choice. -/
def Choice.name : Choice → String
  | .status => "status"
  | .kind => "kind"
  | .fieldType => "field type"

/-- Why a string of octets is not a record. -/
inductive Fault where
  /-- It ends early. -/
  | tooShort
  /-- It does not begin with the mark of its format. -/
  | wrongMagic
  /-- It follows a version of the format that is not known. -/
  | unsupportedVersion (version : UInt16)
  /-- The checksum that it states is not the one of its contents. -/
  | wrongChecksum (stated computed : UInt32)
  /-- A tag stands for nothing. -/
  | unknownTag (choice : Choice) (tag : UInt8)
  /-- Octets follow the last field. -/
  | trailing (count : Nat)
deriving DecidableEq, Repr

/-- The words for a fault. -/
def Fault.message : Fault → String
  | .tooShort => "Record too short"
  | .wrongMagic => "Invalid magic bytes"
  | .unsupportedVersion version => s!"Unsupported format version {version.toNat}"
  | .wrongChecksum stated computed =>
    s!"Checksum mismatch: expected {Hex.text 8 stated.toNat}, computed {Hex.text 8 computed.toNat}"
  | .unknownTag choice tag => s!"Invalid {choice.name} tag {tag.toNat}"
  | .trailing count => s!"{count} trailing bytes"

instance : ToString Fault := ⟨Fault.message⟩

end Bitemporal.Record
