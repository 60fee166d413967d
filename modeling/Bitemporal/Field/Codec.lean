import Bitemporal.Bytes.Reader
import Bitemporal.Error

/-!
# Encoded fields

A tuple of fields is written as its number of fields and then the fields one
after the other, without any mark of their types: the schema alone says how they
are read.

* `Field.encode` writes values that fit a schema, and refuses others by the first
  thing that is wrong with them.
* `Field.decode` reads them back. It accepts nothing that `encode` does not write:
  not another number of fields, not a truth value other than 0 and 1, not octets
  that are no text, and nothing after the last field.
* `Field.encodeWithStarts` and `Field.starts` say where each field begins, the one
  while writing and the other while reading.
-/

namespace Bitemporal

instance : EndOfInput Corruption := ⟨.truncatedTuple⟩

namespace Field

/-! ## Writing -/

/-- The octets of a text or string of octets, after their number. -/
def encodeCounted (octets : List UInt8) : Except Error (List UInt8) :=
  if octets.length < UInt32.size then
    .ok (LittleEndian.octets 4 octets.length ++ octets)
  else .error (.invalidOperation (.fieldTooLong octets.length))

/-- The octets of a value. -/
def encodeValue : FieldValue → Except Error (List UInt8)
  | .nid n => .ok (LittleEndian.ofInt32 n.val)
  | .integer value => .ok (LittleEndian.ofInt32 value)
  | .long value => .ok (LittleEndian.ofInt64 value)
  | .float bits => .ok (LittleEndian.ofUInt32 bits)
  | .boolean value => .ok [if value then 1 else 0]
  | .uuid value => .ok value.octets
  | .instant millis => .ok (LittleEndian.ofInt64 millis)
  | .string text => encodeCounted (Utf8.encode text)
  | .bytes octets => encodeCounted octets

/-- The octets of the values that stand from `position` on, with the place at
    which each begins if the first one begins at `start`. The fields before them
    are held in reverse. -/
def encodeFields (before : List (Nat × List UInt8)) (position start : Nat) :
    List FieldType → List FieldValue → Except Error (List (Nat × List UInt8))
  | declared :: types, value :: values =>
    if value.type ≠ declared then
      .error (.fieldTypeMismatch position declared value.type)
    else
      match encodeValue value with
      | .error e => .error e
      | .ok octets =>
        encodeFields ((start, octets) :: before) (position + 1) (start + octets.length) types values
  | _, _ => .ok before.reverse

/-- The octets of a tuple, and the place at which each of its fields begins. -/
def encodeWithStarts (schema : Schema) (values : List FieldValue) :
    Except Error (List UInt8 × List Nat) :=
  if schema.arity ≠ values.length then
    .error (.arityMismatch schema.arity values.length)
  else if UInt16.size ≤ values.length then
    .error (.invalidOperation (.tooManyFields values.length))
  else
    -- the first field follows the two octets of the count
    match encodeFields [] 0 2 schema.types.toList values with
    | .error e => .error e
    | .ok fields =>
      .ok (LittleEndian.octets 2 values.length ++ fields.flatMap Prod.snd, fields.map Prod.fst)

/-- The octets of a tuple. -/
def encode (schema : Schema) (values : List FieldValue) : Except Error (List UInt8) :=
  (encodeWithStarts schema values).map Prod.fst

/-! ## Reading -/

/-- A string of octets after its number. -/
def readCounted : Reader Corruption (List UInt8) := fun c =>
  match (Reader.uint32 : Reader Corruption UInt32) c with
  | .error e => .error e
  | .ok (count, c) =>
    let length := count.toNat
    let taken := c.rest.take length
    if taken.length = length then .ok (taken, ⟨c.position + length, c.rest.drop length⟩)
    else .error (.fieldOverrun length c.rest.length)

/-- A truth value. -/
def readBoolean : Reader Corruption Bool := do
  match ← Reader.octet with
  | 0 => return false
  | 1 => return true
  | other => throw (.notBoolean other)

/-- An identifier. -/
def readUuid : Reader Corruption Uuid := do
  match Uuid.ofOctets? (← Reader.take 16) with
  | some uuid => return uuid
  | none => throw EndOfInput.endOfInput

/-- A text. -/
def readText : Reader Corruption String := do
  match Utf8.decode (← readCounted) with
  | .ok text => return text
  | .error fault => throw (.notText fault)

/-- A value of a type. -/
def readValue : FieldType → Reader Corruption FieldValue
  | .nid => return .nid ⟨← Reader.int32⟩
  | .integer => return .integer (← Reader.int32)
  | .long => return .long (← Reader.int64)
  | .float => return .float (← Reader.uint32)
  | .boolean => return .boolean (← readBoolean)
  | .uuid => return .uuid (← readUuid)
  | .instant => return .instant (← Reader.int64)
  | .string => return .string (← readText)
  | .bytes => return .bytes (← readCounted)

/-- Reads the number of fields, then one item per declared type, then the end. -/
def readTuple {α : Type} (read : FieldType → Reader Corruption α) (schema : Schema)
    (octets : List UInt8) : Except Error (List α) :=
  match (Reader.uint16 : Reader Corruption UInt16) (.start octets) with
  | .error e => .error (.corruption e)
  | .ok (arity, c) =>
    if arity.toNat ≠ schema.arity then .error (.arityMismatch schema.arity arity.toNat)
    else
      match Reader.each read schema.types.toList c with
      | .error e => .error (.corruption e)
      | .ok (items, c) =>
        if c.rest.isEmpty then .ok items
        else .error (.corruption (.tupleTrailing c.rest.length))

/-- The values of a tuple. -/
def decode (schema : Schema) (octets : List UInt8) : Except Error (List FieldValue) :=
  readTuple readValue schema octets

/-- The place at which each field of a tuple begins. -/
def starts (schema : Schema) (octets : List UInt8) : Except Error (List Nat) :=
  readTuple (fun type => do
    let start ← Reader.position
    let _ ← readValue type
    return start) schema octets

end Field

end Bitemporal
