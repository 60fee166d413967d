import Bitemporal.Field.Tuple
import Bitemporal.Proofs.Bytes.Reader
import Bitemporal.Proofs.Bytes.Utf8
import Mathlib.Data.List.Forall2

/-!
# Encoded fields read back

A tuple is its number of fields and then one piece for each value, the octets of the
value (`Field.Written`). Each piece has its place, where the one before it ends
(`Field.placed`).

Writing makes the pieces of the values that it is given, if they are of the declared
types (`encodeFields_eq_ok_iff`). Reading finds the values whose pieces it stands before
(`reads_values`), and likewise the places (`each_readStart_eq_ok_iff`). Each of them comes
to the same condition on values and octets (`Field.IsTuple`); so a tuple that is read is
the one that was written, and no other octets are accepted
(`decode_eq_ok_iff_encode_eq_ok`).
-/

namespace Bitemporal

namespace Field

/-! ## Single values -/

theorem encodeCounted_eq_ok_iff {content octets : List UInt8} :
    encodeCounted content = .ok octets ↔
      content.length < UInt32.size ∧ octets = LittleEndian.octets 4 content.length ++ content := by
  rw [encodeCounted]
  split
  · next h => simp [h, eq_comm]
  · next h => simp [h]

open Reader (Reads)

theorem readCounted_eq_bind : readCounted = (Reader.uint32 >>= fun count c =>
    if (c.rest.take count.toNat).length = count.toNat
    then .ok (c.rest.take count.toNat, ⟨c.position + count.toNat, c.rest.drop count.toNat⟩)
    else .error (.fieldOverrun count.toNat c.rest.length)) := by
  funext c
  rw [Reader.bind_apply, readCounted]
  cases (Reader.uint32 : Reader Corruption UInt32) c <;> rfl

theorem reads_counted :
    Reads readCounted fun content octets => encodeCounted content = .ok octets := by
  rw [readCounted_eq_bind]
  refine (Reads.counted32 fun n => .takeOr n fun c => Corruption.fieldOverrun n c.rest.length).congr
    fun content octets => ?_
  simp [encodeCounted_eq_ok_iff]

theorem reads_boolean : Reads readBoolean fun b octets => octets = [if b then 1 else 0] := by
  refine (Reads.octet.interpret (R := fun octet b => octet = if b then 1 else 0)
    fun octet => ?_).congr fun b octets => by simp
  split
  · exact .answer fun b => by cases b <;> simp
  · exact .answer fun b => by cases b <;> simp
  · next h₀ h₁ =>
    refine .refuse _ fun b hb => ?_
    cases b
    · exact h₀ hb
    · exact h₁ hb

theorem reads_uuid : Reads readUuid fun uuid octets => octets = uuid.octets :=
  .uuid (fun h => by simp only [h]) fun h => ⟨_, by simp only [h]; rfl⟩

theorem reads_text :
    Reads readText fun text octets => encodeCounted (Utf8.encode text) = .ok octets := by
  refine (reads_counted.interpret (R := fun l text => l = Utf8.encode text) fun l => ?_).congr
    fun text octets => by simp
  split
  · next text h =>
    refine .answer fun text' => ?_
    rw [← Utf8.decode_eq_ok_iff, h, Except.ok.injEq, eq_comm]
  · next fault h =>
    refine .refuse _ fun text ht => ?_
    rw [Utf8.decode_eq_ok_iff.2 ht] at h
    cases h

/-- A value is read from the octets that are written of it, where its type is declared. -/
theorem reads_value (type : FieldType) :
    Reads (readValue type)
      fun value octets => value.type = type ∧ encodeValue value = .ok octets := by
  cases type with
  | nid =>
    refine (Reads.int32.map fun x => FieldValue.nid ⟨x⟩).congr fun value octets => ?_
    rcases value with ⟨⟨x⟩⟩ | _ | _ | _ | _ | _ | _ | _ | _ <;>
      simp [FieldValue.type, encodeValue, eq_comm]
  | integer =>
    refine (Reads.int32.map FieldValue.integer).congr fun value octets => ?_
    cases value <;> simp [FieldValue.type, encodeValue, eq_comm]
  | long =>
    refine (Reads.int64.map FieldValue.long).congr fun value octets => ?_
    cases value <;> simp [FieldValue.type, encodeValue, eq_comm]
  | float =>
    refine (Reads.uint32.map FieldValue.float).congr fun value octets => ?_
    cases value <;> simp [FieldValue.type, encodeValue, eq_comm]
  | boolean =>
    refine (reads_boolean.map FieldValue.boolean).congr fun value octets => ?_
    cases value <;> simp [FieldValue.type, encodeValue, eq_comm]
  | uuid =>
    refine (reads_uuid.map FieldValue.uuid).congr fun value octets => ?_
    cases value <;> simp [FieldValue.type, encodeValue, eq_comm]
  | instant =>
    refine (Reads.int64.map FieldValue.instant).congr fun value octets => ?_
    cases value <;> simp [FieldValue.type, encodeValue, eq_comm]
  | string =>
    refine (reads_text.map FieldValue.string).congr fun value octets => ?_
    cases value <;> simp [FieldValue.type, encodeValue, eq_comm]
  | bytes =>
    refine (reads_counted.map FieldValue.bytes).congr fun value octets => ?_
    cases value <;> simp [FieldValue.type, encodeValue, eq_comm]

/-! ## Tuples -/

/-- The pieces are the octets of the values, one by one. -/
def Written (values : List FieldValue) (pieces : List (List UInt8)) : Prop :=
  List.Forall₂ (fun value octets => encodeValue value = .ok octets) values pieces

/-- Pieces with the places at which they begin, if the first begins at `start`. -/
def placed (start : Nat) : List (List UInt8) → List (Nat × List UInt8)
  | [] => []
  | piece :: pieces => (start, piece) :: placed (start + piece.length) pieces

@[simp] theorem flatMap_snd_placed (start : Nat) (pieces : List (List UInt8)) :
    (placed start pieces).flatMap Prod.snd = pieces.flatten := by
  induction pieces generalizing start with
  | nil => rfl
  | cons piece pieces ih => rw [placed, List.flatMap_cons, ih, List.flatten_cons]

theorem encodeFields_eq_ok_iff {before fields : List (Nat × List UInt8)} {position start : Nat}
    {types : List FieldType} {values : List FieldValue} (h : types.length = values.length) :
    encodeFields before position start types values = .ok fields ↔
      values.map FieldValue.type = types ∧
        ∃ pieces, Written values pieces ∧ fields = before.reverse ++ placed start pieces := by
  induction types generalizing before position start values with
  | nil =>
    obtain rfl := List.length_eq_zero_iff.1 h.symm
    simp [encodeFields, Written, placed, eq_comm]
  | cons declared types ih =>
    obtain ⟨value, values, rfl⟩ := List.exists_cons_of_length_eq_add_one h.symm
    rw [encodeFields]
    split
    · next htype => simp [htype]
    · next htype =>
      rw [List.map_cons, not_not.1 htype, List.cons.injEq]
      split
      · next hvalue => simp [Written, List.forall₂_cons_left_iff, hvalue]
      · next octets hvalue =>
        rw [ih (Nat.succ.inj h)]
        simp [Written, List.forall₂_cons_left_iff, hvalue, placed]

/-- The values of a tuple are read from their octets, one value after the other. -/
theorem reads_values (types : List FieldType) :
    Reads (Reader.each readValue types) fun values octets =>
      values.map FieldValue.type = types ∧
        ∃ pieces, Written values pieces ∧ octets = pieces.flatten := by
  induction types with
  | nil =>
    refine (Reads.pure []).congr fun values octets => ?_
    simp only [List.map_eq_nil_iff]
    refine and_congr_right fun hvalues => ?_
    subst hvalues
    simp [Written]
  | cons declared types ih =>
    rw [Reader.each_cons_eq_bind]
    refine ((reads_value declared).bind fun value => ih.map (value :: ·)).congr
      fun values octets => ?_
    constructor
    · rintro ⟨value, first, _, ⟨htype, hvalue⟩, ⟨values, rfl, rfl, pieces, hw, rfl⟩, rfl⟩
      exact ⟨by rw [List.map_cons, htype], first :: pieces, .cons hvalue hw, rfl⟩
    · rintro ⟨htypes, _, hw, rfl⟩
      cases hw with
      | nil => cases htypes
      | cons hvalue hw =>
        obtain ⟨htype, htypes⟩ := List.cons.inj htypes
        exact ⟨_, _, _, ⟨htype, hvalue⟩, ⟨_, rfl, htypes, _, hw, rfl⟩, rfl⟩

variable {schema : Schema} {values : List FieldValue} {octets : List UInt8}

/-- What the octets of a tuple are: its number of fields, and the octets of each of them,
    which are of the declared types. -/
def IsTuple (schema : Schema) (values : List FieldValue) (pieces : List (List UInt8))
    (octets : List UInt8) : Prop :=
  values.length < UInt16.size ∧ values.map FieldValue.type = schema.types.toList ∧
    Written values pieces ∧ octets = LittleEndian.octets 2 values.length ++ pieces.flatten

theorem arity_eq_length (h : values.map FieldValue.type = schema.types.toList) :
    schema.arity = values.length := by
  rw [Schema.arity, ← Array.length_toList, ← h, List.length_map]

theorem encodeWithStarts_eq_ok_iff {places : List Nat} :
    encodeWithStarts schema values = .ok (octets, places) ↔
      ∃ pieces, IsTuple schema values pieces octets ∧ places = (placed 2 pieces).map Prod.fst := by
  rw [encodeWithStarts]
  split
  · next harity =>
    constructor
    · rintro ⟨⟩
    · rintro ⟨pieces, ⟨-, htypes, -⟩, -⟩
      exact absurd (arity_eq_length htypes) harity
  · next harity =>
    split
    · next hmany =>
      constructor
      · rintro ⟨⟩
      · exact fun ⟨_, h, _⟩ => absurd h.1 (Nat.not_lt.2 hmany)
    · next hmany =>
      have hlength : schema.types.toList.length = values.length := not_not.1 harity
      have hfields {fields} := @encodeFields_eq_ok_iff [] fields 0 2 _ _ hlength
      constructor
      · intro h
        split at h
        · cases h
        · next fields hf =>
          obtain ⟨htypes, pieces, hw, rfl⟩ := hfields.1 hf
          obtain ⟨rfl, rfl⟩ := Prod.mk.inj (Except.ok.inj h)
          exact ⟨pieces, ⟨Nat.not_le.1 hmany, htypes, hw, by simp⟩, rfl⟩
      · rintro ⟨pieces, ⟨-, htypes, hw, rfl⟩, rfl⟩
        rw [hfields.2 ⟨htypes, pieces, hw, rfl⟩]
        simp

theorem encode_eq_ok_iff :
    encode schema values = .ok octets ↔ ∃ pieces, IsTuple schema values pieces octets := by
  have hplaces : encode schema values = .ok octets ↔
      ∃ places, encodeWithStarts schema values = .ok (octets, places) := by
    rw [encode]
    cases encodeWithStarts schema values <;> simp [Except.map, Prod.ext_iff]
  simp only [hplaces, encodeWithStarts_eq_ok_iff]
  constructor
  · rintro ⟨_, pieces, h, -⟩
    exact ⟨pieces, h⟩
  · rintro ⟨pieces, h⟩
    exact ⟨_, pieces, h, rfl⟩

theorem uint16_octets {n : Nat} (hn : n < UInt16.size) (rest : List UInt8) :
    (Reader.uint16 : Reader Corruption UInt16) (.start (LittleEndian.octets 2 n ++ rest)) =
      .ok (UInt16.ofNat n, ⟨2, rest⟩) := by
  refine (Reads.uint16 ..).2 ⟨_, rfl, ?_, rfl⟩
  rw [LittleEndian.ofUInt16, UInt16.toNat_ofNat_of_lt' hn]
  rfl

/-- Once the number of fields is the declared one, all depends on what follows it. -/
theorem readTuple_append {α : Type} {read : FieldType → Reader Corruption α}
    (hlt : schema.arity < UInt16.size) (rest : List UInt8) :
    readTuple read schema (LittleEndian.octets 2 schema.arity ++ rest) =
      match Reader.each read schema.types.toList ⟨2, rest⟩ with
      | .error e => .error (.corruption e)
      | .ok (items, c) =>
        if c.rest.isEmpty then .ok items else .error (.corruption (.tupleTrailing c.rest.length)) := by
  -- the word can hold the number of fields, so the one that is read is the declared one
  have harity : (UInt16.ofNat schema.arity).toNat = schema.arity := UInt16.toNat_ofNat_of_lt' hlt
  rw [readTuple, uint16_octets hlt]
  refine (if_neg (not_not.2 harity)).trans ?_
  cases Reader.each read schema.types.toList ⟨2, rest⟩ <;> rfl

/-- A tuple of any items is read from its number of fields and from the items, which are
    all that follows. -/
theorem readTuple_eq_ok_iff {α : Type} {read : FieldType → Reader Corruption α} {items : List α} :
    readTuple read schema octets = .ok items ↔
      schema.arity < UInt16.size ∧ ∃ rest c, octets = LittleEndian.octets 2 schema.arity ++ rest ∧
        Reader.each read schema.types.toList ⟨2, rest⟩ = .ok (items, c) ∧ c.rest = [] := by
  have hcount : Reads (Reader.uint16 : Reader Corruption UInt16) _ := .uint16
  constructor
  · intro h
    rw [readTuple] at h
    split at h
    · cases h
    · next arity c hc =>
      split_ifs at h with harity
      split at h
      · cases h
      · next items' c' hc' =>
        split_ifs at h with hend
        obtain rfl := Except.ok.inj h
        obtain ⟨_, rfl, hpasses⟩ := (hcount ..).1 hc
        obtain ⟨position, rest⟩ := c
        obtain ⟨rfl, hposition⟩ := Cursor.passes_start_iff.1 hpasses
        obtain rfl : position = 2 := hposition
        rw [← not_not.1 harity]
        exact ⟨arity.toNat_lt, rest, c', rfl, hc', List.isEmpty_iff.1 hend⟩
  · rintro ⟨hlt, rest, c, rfl, hc, hend⟩
    rw [readTuple_append hlt, hc]
    dsimp only
    rw [hend]
    rfl

theorem decode_eq_ok_iff :
    decode schema octets = .ok values ↔ ∃ pieces, IsTuple schema values pieces octets := by
  have hvalues := reads_values schema.types.toList
  rw [decode, readTuple_eq_ok_iff]
  constructor
  · rintro ⟨hlt, rest, c, rfl, hc, hend⟩
    obtain ⟨_, ⟨htypes, pieces, hw, rfl⟩, hrest, -⟩ := (hvalues ..).1 hc
    rw [hend, List.append_nil] at hrest
    dsimp only at hrest
    rw [arity_eq_length htypes] at hlt ⊢
    exact ⟨pieces, hlt, htypes, hw, by rw [hrest]⟩
  · rintro ⟨pieces, hlt, htypes, hw, rfl⟩
    rw [arity_eq_length htypes]
    have hc := (hvalues ⟨2, pieces.flatten⟩ values ⟨2 + pieces.flatten.length, []⟩).2
      ⟨_, ⟨htypes, pieces, hw, rfl⟩, (List.append_nil _).symm, rfl⟩
    exact ⟨hlt, _, _, rfl, hc, rfl⟩

/-! ### Places -/

/-- Reads a value of a type, and answers where it begins. -/
def readStart (type : FieldType) : Reader Corruption Nat := do
  let start ← Reader.position
  let _ ← readValue type
  return start

theorem starts_eq (schema : Schema) (octets : List UInt8) :
    starts schema octets = readTuple readStart schema octets := rfl

theorem readStart_eq_ok_iff {type : FieldType} {c c' : Cursor} {start : Nat} :
    readStart type c = .ok (start, c') ↔
      start = c.position ∧ ∃ value, readValue type c = .ok (value, c') := by
  have happly : readStart type c = (readValue type c >>= fun p => .ok (c.position, p.2)) := rfl
  rw [happly, bind_eq_ok_iff]
  constructor
  · rintro ⟨⟨value, c₁⟩, hv, h⟩
    obtain ⟨rfl, rfl⟩ := Prod.mk.inj (Except.ok.inj h)
    exact ⟨rfl, value, hv⟩
  · rintro ⟨rfl, value, hv⟩
    exact ⟨_, hv, rfl⟩

/-- The places at which fields begin are those of the pieces that stand there. -/
theorem each_readStart_eq_ok_iff {types : List FieldType} {c c' : Cursor} {places : List Nat} :
    Reader.each readStart types c = .ok (places, c') ↔
      ∃ values pieces, values.map FieldValue.type = types ∧ Written values pieces ∧
        c.Passes pieces.flatten c' ∧ places = (placed c.position pieces).map Prod.fst := by
  induction types generalizing c places with
  | nil =>
    have hnil : Reader.each readStart [] c = .ok ([], c) := rfl
    rw [hnil]
    constructor
    · rintro ⟨⟩
      exact ⟨[], [], rfl, .nil, Cursor.passes_nil.2 rfl, rfl⟩
    · rintro ⟨values, pieces, htypes, hw, hc, rfl⟩
      obtain rfl := List.map_eq_nil_iff.1 htypes
      cases hw
      rw [Cursor.passes_nil.1 hc]
      rfl
  | cons declared types ih =>
    rw [Reader.each_cons_eq_ok_iff]
    constructor
    · rintro ⟨_, c₁, _, hstart, heach, rfl⟩
      obtain ⟨rfl, value, hv⟩ := readStart_eq_ok_iff.1 hstart
      obtain ⟨piece, ⟨htype, hpiece⟩, hc₁⟩ := (reads_value declared ..).1 hv
      obtain ⟨values, pieces, htypes, hw, hc, rfl⟩ := ih.1 heach
      refine ⟨value :: values, piece :: pieces, by rw [List.map_cons, htype, htypes],
        .cons hpiece hw, Cursor.passes_append.2 ⟨c₁, hc₁, hc⟩, ?_⟩
      rw [placed, hc₁.2]
      rfl
    · rintro ⟨_, _, htypes, hw, hc, rfl⟩
      cases hw with
      | nil => cases htypes
      | @cons value piece values pieces hpiece hw =>
        obtain ⟨htype, htypes⟩ := List.cons.inj htypes
        obtain ⟨c₁, hc₁, hc⟩ := Cursor.passes_append.1 hc
        have hv := (reads_value declared c value c₁).2 ⟨piece, ⟨htype, hpiece⟩, hc₁⟩
        refine ⟨_, c₁, _, readStart_eq_ok_iff.2 ⟨rfl, value, hv⟩,
          ih.2 ⟨values, pieces, htypes, hw, hc, rfl⟩, ?_⟩
        rw [placed, hc₁.2]
        rfl

/-- The places that are noted while a tuple is written are those at which its fields are
    found. -/
theorem starts_of_encodeWithStarts {places : List Nat}
    (h : encodeWithStarts schema values = .ok (octets, places)) :
    starts schema octets = .ok places := by
  obtain ⟨pieces, ⟨hlt, htypes, hw, rfl⟩, rfl⟩ := encodeWithStarts_eq_ok_iff.1 h
  rw [starts_eq, readTuple_eq_ok_iff, arity_eq_length htypes]
  refine ⟨hlt, pieces.flatten, ⟨2 + pieces.flatten.length, []⟩, rfl, ?_, rfl⟩
  exact each_readStart_eq_ok_iff.2
    ⟨values, pieces, htypes, hw, ⟨(List.append_nil _).symm, rfl⟩, rfl⟩

/-! ### Refusals

Values and places come from one pass, which finds both, so either is refused if the other
is. -/

/-- Reads a value of a type, and answers where it begins and what it is. -/
def readPlaced (type : FieldType) : Reader Corruption (Nat × FieldValue) := do
  let start ← Reader.position
  return (start, ← readValue type)

theorem readTuple_map {α β : Type} (f : α → β) (read : FieldType → Reader Corruption α) :
    readTuple (fun type => do return f (← read type)) schema octets =
      (readTuple read schema octets).map (List.map f) := by
  rw [readTuple, readTuple]
  cases (Reader.uint16 : Reader Corruption UInt16) (.start octets) with
  | error e => rfl
  | ok p =>
    dsimp only
    split
    · rfl
    · rw [Reader.each_map, Reader.bind_apply]
      cases Reader.each read schema.types.toList p.2 with
      | error e => rfl
      | ok q =>
        show (if q.2.rest.isEmpty then Except.ok (q.1.map f) else _) = _
        dsimp only
        split <;> rfl

theorem starts_eq_map :
    starts schema octets = (readTuple readPlaced schema octets).map (List.map Prod.fst) := by
  have hstart (type : FieldType) : readStart type = do return (← readPlaced type).1 := by
    simp only [readStart, readPlaced, bind_assoc, pure_bind]
  rw [← readTuple_map, starts_eq, ← funext hstart]

theorem decode_eq_map :
    decode schema octets = (readTuple readPlaced schema octets).map (List.map Prod.snd) := by
  have hvalue (type : FieldType) : readValue type = do return (← readPlaced type).2 := by
    simp only [readPlaced, bind_assoc, pure_bind, bind_pure]
    rfl
  rw [← readTuple_map, decode, ← funext hvalue]

/-- The places of the fields are refused for what the values are refused for. -/
theorem starts_eq_error_iff {e : Error} :
    starts schema octets = .error e ↔ decode schema octets = .error e := by
  rw [starts_eq_map, decode_eq_map]
  cases readTuple readPlaced schema octets <;> simp [Except.map]

/-- A tuple is read just when it was written: what was written is read back, and nothing
    else is accepted. -/
theorem decode_eq_ok_iff_encode_eq_ok (schema : Schema) (values : List FieldValue)
    (octets : List UInt8) :
    decode schema octets = .ok values ↔ encode schema values = .ok octets :=
  decode_eq_ok_iff.trans encode_eq_ok_iff.symm

example : encode ⟨#[.boolean, .nid]⟩ [.boolean true, .nid ⟨7⟩] = .ok [2, 0, 1, 7, 0, 0, 0] := rfl

end Field

/-! ## Tuples that are kept encoded -/

namespace FieldTuple

variable {schema : Schema} {tuple : FieldTuple}

/-- A tuple of a schema is the one that its octets encode. -/
def Fits (schema : Schema) (tuple : FieldTuple) : Prop :=
  ofOctets schema tuple.octets.toList = .ok tuple

theorem fits_of_ofOctets {octets : List UInt8} (h : ofOctets schema octets = .ok tuple) :
    tuple.octets.toList = octets ∧ tuple.Fits schema := by
  have hoctets : tuple.octets.toList = octets := by
    rw [ofOctets] at h
    cases hs : Field.starts schema octets with
    | error e =>
      rw [hs] at h
      cases h
    | ok places =>
      rw [hs] at h
      obtain rfl := Except.ok.inj h
      rfl
  exact ⟨hoctets, by rw [Fits, hoctets, h]⟩

theorem fits_of_ofValues {values : List FieldValue} (h : ofValues schema values = .ok tuple) :
    tuple.Fits schema := by
  rw [ofValues] at h
  cases he : Field.encodeWithStarts schema values with
  | error e =>
    rw [he] at h
    cases h
  | ok p =>
    rw [he] at h
    obtain rfl := Except.ok.inj h
    have hs : Field.starts schema p.1 = .ok p.2 := Field.starts_of_encodeWithStarts he
    rw [Fits, ofOctets]
    dsimp only
    rw [hs]
    rfl

end FieldTuple

end Bitemporal
