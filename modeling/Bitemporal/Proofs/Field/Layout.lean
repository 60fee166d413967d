import Bitemporal.Proofs.Field.Codec
import Mathlib.Algebra.GroupWithZero.Nat

/-!
# The layout of a tuple

What a value takes up in a tuple is a number that needs no encoding to be known
(`FieldValue.width`): its type has a fixed width, or else its content counts, after the four
octets of its length. The octets that are written of a value are that many
(`length_of_encodeValue`), so it is known where each field begins (`Field.startOf`).

Values can be written as a tuple just if their number is declared and fits its word, each
of them is of the type that is declared for it, and no content is too long for its length
to be written (`exists_encode_eq_ok_iff`). If they are as many as are declared, and not too
many for their word, then the first of them that cannot stand where it stands
(`FirstMisfit`) is what is refused, for its type if that is wrong, and else for its content
(`encodeFields_of_misfit`). All this is `encode_outcome`.
-/

namespace Bitemporal

namespace FieldValue

/-- The octets of a text or of a string of octets. Other values have none to be counted. -/
def content : FieldValue → List UInt8
  | .string text => Utf8.encode text
  | .bytes octets => octets
  | _ => []

/-- The number of octets of a value in a tuple. -/
def width (value : FieldValue) : Nat :=
  value.type.fixedWidth.getD (4 + value.content.length)

end FieldValue

namespace Field

variable {schema : Schema} {declared : FieldType} {value : FieldValue} {values : List FieldValue}
  {octets : List UInt8} {pieces : List (List UInt8)} {position : Nat}

/-! ### Single values -/

/-- The octets of a value are as many as its width says. -/
theorem length_of_encodeValue (h : encodeValue value = .ok octets) :
    octets.length = value.width := by
  cases value with
  | string text =>
    obtain ⟨-, rfl⟩ := encodeCounted_eq_ok_iff.1 h
    rw [List.length_append, LittleEndian.length_octets]
    rfl
  | bytes content =>
    obtain ⟨-, rfl⟩ := encodeCounted_eq_ok_iff.1 h
    rw [List.length_append, LittleEndian.length_octets]
    rfl
  | uuid u =>
    obtain rfl := Except.ok.inj h
    exact u.length_octets
  | _ =>
    obtain rfl := Except.ok.inj h
    rfl

theorem encodeValue_of_content_lt (h : value.content.length < UInt32.size) :
    ∃ octets, encodeValue value = .ok octets := by
  cases value with
  | string text => exact ⟨_, if_pos h⟩
  | bytes content => exact ⟨_, if_pos h⟩
  | _ => exact ⟨_, rfl⟩

theorem encodeValue_of_le_content (h : UInt32.size ≤ value.content.length) :
    encodeValue value = .error (.invalidOperation (.fieldTooLong value.content.length)) := by
  cases value with
  | string text => exact if_neg (Nat.not_lt.2 h)
  | bytes content => exact if_neg (Nat.not_lt.2 h)
  | _ => exact absurd h (Nat.not_le.2 (by decide : 0 < UInt32.size))

/-- A value has octets just if its content can be counted. -/
theorem exists_encodeValue_eq_ok_iff :
    (∃ octets, encodeValue value = .ok octets) ↔ value.content.length < UInt32.size := by
  refine ⟨fun ⟨octets, h⟩ => ?_, encodeValue_of_content_lt⟩
  by_contra hlong
  rw [encodeValue_of_le_content (Nat.not_lt.1 hlong)] at h
  cases h

/-! ### Places -/

/-- The place at which the field at a position begins, if the fields have these values: after
    the number of fields, which takes two octets, and after the fields before it. -/
def startOf (values : List FieldValue) (position : Nat) : Nat :=
  2 + ((values.take position).map FieldValue.width).sum

theorem Written.map_length (hw : Written values pieces) :
    pieces.map List.length = values.map FieldValue.width := by
  induction hw with
  | nil => rfl
  | cons hpiece _ ih => rw [List.map_cons, List.map_cons, ih, length_of_encodeValue hpiece]

/-- A tuple has the octets of its number of fields, and those of its values. -/
theorem length_of_isTuple (h : IsTuple schema values pieces octets) :
    octets.length = 2 + (values.map FieldValue.width).sum := by
  obtain ⟨-, -, hw, rfl⟩ := h
  rw [List.length_append, LittleEndian.length_octets, List.length_flatten, hw.map_length]

/-! ### Values that can be written -/

/-- A value can be written where a type is declared. -/
structure Admits (declared : FieldType) (value : FieldValue) : Prop where
  type : value.type = declared
  content : value.content.length < UInt32.size

/-- Values can be written as a tuple: they are as many as are declared, their number fits its
    word, and each can be written where it stands. -/
structure Encodable (schema : Schema) (values : List FieldValue) : Prop where
  arity : schema.arity = values.length
  count : values.length < UInt16.size
  admits : ∀ position declared value, schema.type? position = some declared →
    values[position]? = some value → Admits declared value

theorem exists_written_iff :
    (∃ pieces, Written values pieces) ↔ ∀ value ∈ values, value.content.length < UInt32.size := by
  constructor
  · rintro ⟨pieces, hw⟩
    induction hw with
    | nil => exact fun _ h => absurd h List.not_mem_nil
    | cons hpiece _ ih =>
      exact List.forall_mem_cons.2 ⟨exists_encodeValue_eq_ok_iff.1 ⟨_, hpiece⟩, ih⟩
  · intro h
    induction values with
    | nil => exact ⟨[], .nil⟩
    | cons value values ih =>
      obtain ⟨hvalue, hvalues⟩ := List.forall_mem_cons.1 h
      obtain ⟨piece, hpiece⟩ := encodeValue_of_content_lt hvalue
      obtain ⟨pieces, hw⟩ := ih hvalues
      exact ⟨piece :: pieces, .cons hpiece hw⟩

theorem type?_eq_of_types (h : values.map FieldValue.type = schema.types.toList) :
    schema.type? position = (values[position]?).map FieldValue.type := by
  rw [Schema.type?, ← Array.getElem?_toList, ← h, List.getElem?_map]

/-- Each value of those that can be written has a type declared, and can be written there. -/
theorem Encodable.exists_declared (h : Encodable schema values) (hlt : position < values.length) :
    ∃ declared, schema.type? position = some declared ∧ Admits declared values[position] := by
  have hsize : position < schema.types.size := Nat.lt_of_lt_of_eq hlt h.arity.symm
  have hdeclared : schema.type? position = some schema.types[position] :=
    Array.getElem?_eq_getElem hsize
  exact ⟨_, hdeclared, h.admits _ _ _ hdeclared (List.getElem?_eq_getElem hlt)⟩

theorem Encodable.map_type (h : Encodable schema values) :
    values.map FieldValue.type = schema.types.toList := by
  refine List.ext_getElem? fun position => ?_
  have htype : schema.types.toList[position]? = schema.type? position := Array.getElem?_toList
  rw [List.getElem?_map, htype]
  by_cases hlt : position < values.length
  · obtain ⟨declared, hdeclared, hadmits⟩ := h.exists_declared hlt
    rw [List.getElem?_eq_getElem hlt, hdeclared, ← hadmits.type]
    rfl
  · have hle : values.length ≤ position := Nat.not_lt.1 hlt
    rw [List.getElem?_eq_none hle, Schema.type?,
      Array.getElem?_eq_none (Nat.le_trans (Nat.le_of_eq h.arity) hle)]
    rfl

theorem Encodable.exists_written (h : Encodable schema values) :
    ∃ pieces, Written values pieces := by
  refine exists_written_iff.2 fun value hvalue => ?_
  obtain ⟨position, hlt, rfl⟩ := List.getElem_of_mem hvalue
  obtain ⟨_, -, hadmits⟩ := h.exists_declared hlt
  exact hadmits.content

theorem exists_encode_eq_ok_iff :
    (∃ octets, encode schema values = .ok octets) ↔ Encodable schema values := by
  constructor
  · rintro ⟨octets, h⟩
    obtain ⟨pieces, hlt, htypes, hw, -⟩ := encode_eq_ok_iff.1 h
    refine ⟨arity_eq_length htypes, hlt, fun position declared value hdeclared hvalue => ?_⟩
    rw [type?_eq_of_types htypes, hvalue] at hdeclared
    exact ⟨Option.some.inj hdeclared,
      exists_written_iff.1 ⟨pieces, hw⟩ value (List.mem_of_getElem? hvalue)⟩
  · intro h
    obtain ⟨pieces, hw⟩ := h.exists_written
    exact ⟨_, encode_eq_ok_iff.2 ⟨pieces, h.count, h.map_type, hw, rfl⟩⟩

/-! ### Values that cannot be written -/

/-- The first position at which a value cannot be written where it stands. -/
structure FirstMisfit (types : List FieldType) (values : List FieldValue) (position : Nat)
    (declared : FieldType) (value : FieldValue) : Prop where
  type_eq : types[position]? = some declared
  value_eq : values[position]? = some value
  misfit : ¬ Admits declared value
  before : ∀ earlier < position, ∀ declared value, types[earlier]? = some declared →
    values[earlier]? = some value → Admits declared value

/-- What a value is refused for that cannot be written at a position: its type, or else its
    content. -/
def misfitError (position : Nat) (declared : FieldType) (value : FieldValue) : Error :=
  if value.type ≠ declared then .fieldTypeMismatch position declared value.type
  else .invalidOperation (.fieldTooLong value.content.length)

/-- The first value that cannot be written is the one that is refused. -/
theorem encodeFields_of_misfit {before : List (Nat × List UInt8)} {start first : Nat}
    {types : List FieldType} (h : FirstMisfit types values position declared value) :
    encodeFields before first start types values =
      .error (misfitError (first + position) declared value) := by
  obtain ⟨htype, hvalue, hmisfit, hbefore⟩ := h
  induction position generalizing before first start types values with
  | zero =>
    obtain ⟨types, rfl⟩ := List.head?_eq_some_iff.1 (List.head?_eq_getElem? ▸ htype)
    obtain ⟨values, rfl⟩ := List.head?_eq_some_iff.1 (List.head?_eq_getElem? ▸ hvalue)
    rw [encodeFields, misfitError]
    split
    · rfl
    · next hdeclared =>
      have hlong : UInt32.size ≤ value.content.length :=
        Nat.not_lt.1 fun hlt => hmisfit ⟨not_not.1 hdeclared, hlt⟩
      rw [encodeValue_of_le_content hlong]
  | succ position ih =>
    cases types with
    | nil => cases htype
    | cons declared₀ types =>
      cases values with
      | nil => cases hvalue
      | cons value₀ values =>
        -- the first value is admitted, so it is written, and the others are looked at
        have hfirst := hbefore 0 (Nat.succ_pos _) declared₀ value₀ rfl rfl
        obtain ⟨octets, hoctets⟩ := encodeValue_of_content_lt hfirst.content
        rw [encodeFields, if_neg (not_not.2 hfirst.type), hoctets]
        dsimp only
        rw [ih htype hvalue fun earlier hlt => hbefore (earlier + 1) (Nat.succ_lt_succ hlt),
          Nat.add_right_comm, Nat.add_assoc]

/-- What becomes of values that are to be written as a tuple.

* They are written just if they can be, and then the tuple has two octets for their number
  and as many octets for each as its type and content say.
* If they are not as many as are declared, they are refused for that, whatever else may be
  wrong, and if they are too many for their word, then for that.
* Else the first value that is not of the type declared for it, or is too long, is refused:
  for its type if that is wrong, and only then for its length. -/
theorem encode_outcome (schema : Schema) (values : List FieldValue) :
    ((∃ octets, encode schema values = .ok octets) ↔ Encodable schema values) ∧
    (∀ octets, encode schema values = .ok octets →
      octets.length = 2 + (values.map FieldValue.width).sum) ∧
    (schema.arity ≠ values.length →
      encode schema values = .error (.arityMismatch schema.arity values.length)) ∧
    (schema.arity = values.length → UInt16.size ≤ values.length →
      encode schema values = .error (.invalidOperation (.tooManyFields values.length))) ∧
    (schema.arity = values.length → values.length < UInt16.size →
      ∀ position declared value, FirstMisfit schema.types.toList values position declared value →
        (value.type ≠ declared →
          encode schema values = .error (.fieldTypeMismatch position declared value.type)) ∧
        (value.type = declared → UInt32.size ≤ value.content.length ∧
          encode schema values =
            .error (.invalidOperation (.fieldTooLong value.content.length)))) := by
  refine ⟨exists_encode_eq_ok_iff, fun octets h => ?_, fun harity => ?_, fun harity hmany => ?_,
    fun harity hcount position declared value h => ?_⟩
  · obtain ⟨pieces, htuple⟩ := encode_eq_ok_iff.1 h
    exact length_of_isTuple htuple
  · rw [encode, encodeWithStarts, if_pos harity]
    rfl
  · rw [encode, encodeWithStarts, if_neg (not_not.2 harity), if_pos hmany]
    rfl
  · have hrefused : encode schema values = .error (misfitError position declared value) := by
      rw [encode, encodeWithStarts, if_neg (not_not.2 harity), if_neg (Nat.not_le.2 hcount),
        encodeFields_of_misfit h, Nat.zero_add]
      rfl
    refine ⟨fun hne => ?_, fun heq => ⟨?_, ?_⟩⟩
    · rw [hrefused, misfitError, if_pos hne]
    · exact Nat.not_lt.1 fun hlt => h.misfit ⟨heq, hlt⟩
    · rw [hrefused, misfitError, if_neg (not_not.2 heq)]

/-- A string of octets that is one octet too long for its length to be written. -/
def tooLong : FieldValue :=
  .bytes (List.replicate UInt32.size 0)

theorem length_content_tooLong : tooLong.content.length = UInt32.size :=
  List.length_replicate

/-- What stands first is refused, be it too long or of another type, and two values where one
    is declared are refused in any case. -/
theorem encode_outcome_of_tooLong :
    encode ⟨#[.boolean, .bytes, .string]⟩ [.boolean true, tooLong, .nid ⟨1⟩] =
        .error (.invalidOperation (.fieldTooLong UInt32.size)) ∧
      encode ⟨#[.boolean, .string, .bytes]⟩ [.boolean true, .nid ⟨1⟩, tooLong] =
        .error (.fieldTypeMismatch 1 .string .nid) ∧
      encode ⟨#[.string]⟩ [tooLong, tooLong] = .error (.arityMismatch 1 2) ∧
      ∃ octets, encode ⟨#[.string, .uuid]⟩ [.string "é", .uuid ⟨List.replicate 16 5, rfl⟩] =
        .ok octets ∧ octets.length = 24 := by
  have hfirst {types : List FieldType} {values : List FieldValue} :
      ∀ earlier < 1, ∀ declared value, (.boolean :: types)[earlier]? = some declared →
        (.boolean true :: values)[earlier]? = some value → Admits declared value := by
    intro earlier hlt declared value hdeclared hvalue
    obtain rfl := Nat.lt_one_iff.1 hlt
    cases hdeclared
    cases hvalue
    exact ⟨rfl, by decide⟩
  have hlong : FirstMisfit [.boolean, .bytes, .string] [.boolean true, tooLong, .nid ⟨1⟩] 1 .bytes
      tooLong :=
    ⟨rfl, rfl, fun h => Nat.lt_irrefl _ (length_content_tooLong ▸ h.content), hfirst⟩
  have hmistyped : FirstMisfit [.boolean, .string, .bytes] [.boolean true, .nid ⟨1⟩, tooLong] 1
      .string (.nid ⟨1⟩) := ⟨rfl, rfl, (fun h => nomatch h.type), hfirst⟩
  have hencodable : Encodable ⟨#[.string, .uuid]⟩
      [.string "é", .uuid ⟨List.replicate 16 5, rfl⟩] := by
    refine ⟨rfl, by decide, fun position declared value hdeclared hvalue => ?_⟩
    obtain _ | _ | position := position
    · cases hdeclared
      cases hvalue
      exact ⟨rfl, by decide⟩
    · cases hdeclared
      cases hvalue
      exact ⟨rfl, by decide⟩
    · cases hvalue
  refine ⟨?_, ?_, ?_, ?_⟩
  · have houtcome := encode_outcome ⟨#[.boolean, .bytes, .string]⟩
      [.boolean true, tooLong, .nid ⟨1⟩]
    rw [← length_content_tooLong]
    exact ((houtcome.2.2.2.2 rfl (by decide) _ _ _ hlong).2 rfl).2
  · have houtcome := encode_outcome ⟨#[.boolean, .string, .bytes]⟩
      [.boolean true, .nid ⟨1⟩, tooLong]
    exact (houtcome.2.2.2.2 rfl (by decide) _ _ _ hmistyped).1 (by decide)
  · exact (encode_outcome _ _).2.2.1 (by decide)
  · obtain ⟨octets, hoctets⟩ := (encode_outcome _ _).1.2 hencodable
    exact ⟨octets, hoctets, (encode_outcome _ _).2.1 octets hoctets⟩

end Field

end Bitemporal
