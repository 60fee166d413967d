import Bitemporal.Field.Codec

/-!
# Field tuples

A `FieldTuple` keeps its fields encoded and knows where each of them begins, so
that one field can be read without the others. The places are kept in 32-bit
words.

A tuple comes from values (`FieldTuple.ofValues`) or from octets that were
encoded before (`FieldTuple.ofOctets`); in both cases it fits its schema.
-/

namespace Bitemporal

/-- An encoded tuple of fields. -/
structure FieldTuple where
  /-- The declared types of its fields. -/
  schema : Schema
  /-- Its octets. -/
  octets : Array UInt8
  /-- The place at which each field begins. -/
  offsets : Array UInt32
deriving DecidableEq, Repr

namespace FieldTuple

/-- The tuple of the given values. -/
def ofValues (schema : Schema) (values : List FieldValue) : Except Error FieldTuple :=
  (Field.encodeWithStarts schema values).map fun (octets, starts) =>
    ⟨schema, octets.toArray, (starts.map UInt32.ofNat).toArray⟩

/-- The tuple that octets encode. -/
def ofOctets (schema : Schema) (octets : List UInt8) : Except Error FieldTuple :=
  (Field.starts schema octets).map fun starts =>
    ⟨schema, octets.toArray, (starts.map UInt32.ofNat).toArray⟩

/-- The number of fields. -/
def arity (t : FieldTuple) : Nat :=
  t.offsets.size

/-- The place at which a field of a type begins that has the given offset. Of a
    field whose width is fixed no more than that is looked at. -/
def cursorAt (t : FieldTuple) (type : FieldType) (offset : Nat) : Cursor :=
  match type.fixedWidth with
  | some width => ⟨offset, (t.octets.extract offset (offset + width)).toList⟩
  | none => ⟨offset, (t.octets.extract offset t.octets.size).toList⟩

/-- The field at a position. -/
def get (t : FieldTuple) (position : Nat) : Except Error FieldValue :=
  match t.offsets[position]?, t.schema.type? position with
  | some offset, some type =>
    match Field.readValue type (t.cursorAt type offset.toNat) with
    | .ok (value, _) => .ok value
    | .error damage => .error (.corruption damage)
  | _, _ => .error (.invalidOperation (.noSuchField position t.arity))

/-- The component number at a position, if one is declared there. -/
def nidAt? (t : FieldTuple) (position : Nat) : Option Nid :=
  if t.schema.type? position = some .nid then (t.get position).toOption.bind FieldValue.nid?
  else none

/-- The component numbers of the tuple, in the order of their positions. -/
def referencedNids (t : FieldTuple) : List Nid :=
  t.schema.nidPositions.filterMap t.nidAt?

/-- All fields. -/
def values (t : FieldTuple) : Except Error (List FieldValue) :=
  Field.decode t.schema t.octets.toList

end FieldTuple

end Bitemporal
