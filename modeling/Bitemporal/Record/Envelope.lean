import Bitemporal.Bytes.Checksum
import Bitemporal.Bytes.Reader
import Bitemporal.Component
import Bitemporal.Record.Fault

/-!
# The envelope of a record

Every export record begins with the mark of its format and the version of the
format, and ends with the checksum of all that stands before it. What lies
between is the body, which must be read to its end.
-/

namespace Bitemporal.Record

instance : EndOfInput Fault := ⟨.tooShort⟩

/-- The version of the formats that are written and read. -/
def formatVersion : UInt16 := 1

/-- The mark of a record of stamps. -/
def stampsMagic : List UInt8 := [0x53, 0x54, 0x4D, 0x50]

/-- The mark of a record of a component. -/
def historyMagic : List UInt8 := [0x43, 0x48, 0x52, 0x4E]

/-- The record with the given mark and body. -/
def wrap (magic body : List UInt8) : List UInt8 :=
  let contents := magic ++ LittleEndian.ofUInt16 formatVersion ++ body
  contents ++ LittleEndian.ofUInt32 (Checksum.ofOctets contents)

/-- What `read` makes of the body of a record with the given mark. -/
def unwrap {α : Type} (magic : List UInt8) (read : Reader Fault α) (octets : List UInt8) :
    Except Fault α :=
  -- mark, version and checksum have ten octets
  if octets.length < 10 then .error .tooShort
  else if octets.take 4 ≠ magic then .error .wrongMagic
  else
    let contents := octets.take (octets.length - 4)
    let stated := UInt32.ofNat (LittleEndian.value (octets.drop (octets.length - 4)))
    let computed := Checksum.ofOctets contents
    if stated ≠ computed then .error (.wrongChecksum stated computed)
    else
      match (Reader.uint16 : Reader Fault UInt16) ⟨4, contents.drop 4⟩ with
      | .error fault => .error fault
      | .ok (version, c) =>
        if version ≠ formatVersion then .error (.unsupportedVersion version)
        else
          match read c with
          | .error fault => .error fault
          | .ok (a, c) => if c.rest.isEmpty then .ok a else .error (.trailing c.rest.length)

/-- A component number. -/
def readNid : Reader Fault Nid := do
  return ⟨← Reader.int32⟩

/-- A choice that is written as a tag. -/
def readTag {α : Type} (choice : Choice) (ofTag? : UInt8 → Option α) : Reader Fault α := do
  let tag ← Reader.octet
  match ofTag? tag with
  | some a => return a
  | none => throw (.unknownTag choice tag)

end Bitemporal.Record
