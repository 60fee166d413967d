import Bitemporal.Nid
import Bitemporal.Uuid

/-!
# Fields

The versions of a semantic carry a fixed number of typed fields. Which types
stand at which positions is said once, by the `Schema` of the assemblage; a
`FieldValue` is what stands at one position.

The bits of a floating point number are kept as they are: nothing here computes
with them, and not-a-number values stay what they were.
-/

namespace Bitemporal

/-- The types of fields. -/
inductive FieldType where
  | nid
  | integer
  | long
  | float
  | boolean
  | uuid
  | instant
  | string
  | bytes
deriving DecidableEq, Repr, Inhabited

namespace FieldType

/-- All field types, in the order of their tags. -/
def all : List FieldType :=
  [.nid, .integer, .long, .float, .boolean, .uuid, .instant, .string, .bytes]

/-- The octet that stands for a field type in a record. -/
def tag : FieldType → UInt8
  | .nid => 1
  | .integer => 2
  | .long => 3
  | .float => 4
  | .boolean => 5
  | .uuid => 6
  | .instant => 7
  | .string => 8
  | .bytes => 9

/-- The field type that an octet stands for. -/
def ofTag? (tag : UInt8) : Option FieldType :=
  all.find? fun t => t.tag = tag

/-- The number of octets of every encoded field of this type, if they all have
    the same number. -/
def fixedWidth : FieldType → Option Nat
  | .nid | .integer | .float => some 4
  | .long | .instant => some 8
  | .boolean => some 1
  | .uuid => some 16
  | .string | .bytes => none

/-- The name of a field type. -/
def name : FieldType → String
  | .nid => "NID"
  | .integer => "INTEGER"
  | .long => "LONG"
  | .float => "FLOAT"
  | .boolean => "BOOLEAN"
  | .uuid => "UUID"
  | .instant => "INSTANT"
  | .string => "STRING"
  | .bytes => "BYTES"

instance : ToString FieldType := ⟨name⟩

theorem ofTag?_tag (t : FieldType) : ofTag? t.tag = some t := by
  cases t <;> rfl

end FieldType

/-- The value of a field. -/
inductive FieldValue where
  /-- The number of a component. -/
  | nid (n : Nid)
  /-- A 32-bit integer. -/
  | integer (value : Int32)
  /-- A 64-bit integer. -/
  | long (value : Int64)
  /-- The 32 bits of a floating point number. -/
  | float (bits : UInt32)
  /-- A truth value. -/
  | boolean (value : Bool)
  /-- A universally unique identifier. -/
  | uuid (value : Uuid)
  /-- A time in milliseconds. -/
  | instant (millis : Int64)
  /-- A text. -/
  | string (text : String)
  /-- A string of octets. -/
  | bytes (octets : List UInt8)
deriving DecidableEq, Repr, Inhabited

namespace FieldValue

/-- The type of a value. -/
def type : FieldValue → FieldType
  | .nid _ => .nid
  | .integer _ => .integer
  | .long _ => .long
  | .float _ => .float
  | .boolean _ => .boolean
  | .uuid _ => .uuid
  | .instant _ => .instant
  | .string _ => .string
  | .bytes _ => .bytes

/-- The component number that a value is. -/
def nid? : FieldValue → Option Nid
  | .nid n => some n
  | _ => none

end FieldValue

/-- The declared field types of an assemblage, by position. -/
structure Schema where
  /-- The types. -/
  types : Array FieldType
deriving DecidableEq, Repr, Inhabited

namespace Schema

/-- The number of fields. -/
def arity (s : Schema) : Nat :=
  s.types.size

/-- The type declared at a position. -/
def type? (s : Schema) (position : Nat) : Option FieldType :=
  s.types[position]?

/-- The positions that hold component numbers, in ascending order. -/
def nidPositions (s : Schema) : List Nat :=
  (List.range s.arity).filter fun i => s.type? i = some .nid

end Schema

end Bitemporal
