import Bitemporal.Proofs.Field.Access

/-!
# Offsets

A tuple keeps the place of each of its fields in a 32-bit word. What the word holds is the
remainder of the place (`FieldTuple.Fits.offset_eq`), so it tells the place of a field just if
the field begins below 2^32. The fields of a tuple begin one after the other, hence all words
tell their places if the last one does, and this can be said of the values alone
(`FieldTuple.KeepsPlaces`, `FieldTuple.keepsPlaces_of_made`).

Nothing else bounds where a field begins: content of up to 2^32 - 1 octets is taken for each
field, and there may be many of them. A field that begins beyond is looked for at the
remainder of its place (`FieldTuple.Fits.get_eq`), and whatever stands there is read without
a refusal if it can be read as a value of the type (`FieldTuple.far_field_is_mistaken`).
-/

namespace Bitemporal

namespace Field

variable {values : List FieldValue} {value : FieldValue} {position later : Nat}

/-- The fields of a tuple begin one after the other. -/
theorem startOf_mono (values : List FieldValue) (h : position ≤ later) :
    startOf values position ≤ startOf values later := by
  obtain ⟨between, rfl⟩ := Nat.exists_eq_add_of_le h
  rw [startOf, startOf, List.take_add, List.map_append, List.sum_append]
  omega

/-- A field begins where the one before it ends. -/
theorem startOf_succ (hv : values[position]? = some value) :
    startOf values (position + 1) = startOf values position + value.width := by
  rw [startOf, startOf, List.take_add_one, hv, List.map_append, List.sum_append,
    ← Nat.add_assoc]
  rfl

end Field

namespace FieldTuple

open Bitemporal.Field

variable {schema : Schema} {tuple : FieldTuple} {values : List FieldValue} {value : FieldValue}
  {position : Nat} {offset : UInt32}

/-! ## Words for places -/

/-- The value of a type that is read at a place. -/
def readAt (tuple : FieldTuple) (type : FieldType) (place : Nat) : Except Error FieldValue :=
  match readValue type (tuple.cursorAt type place) with
  | .ok (value, _) => .ok value
  | .error damage => .error (.corruption damage)

/-- The word for the place of a field holds the remainder of the place. -/
theorem Fits.offset_eq (hfits : tuple.Fits schema) (h : tuple.values = .ok values)
    (hoffset : tuple.offsets[position]? = some offset) :
    offset.toNat = startOf values position % UInt32.size := by
  have hlt : position < values.length := by
    have hsize : position < tuple.arity := (Array.getElem?_eq_some_iff.1 hoffset).1
    rwa [(hfits.readAlone h).arity] at hsize
  have hkept := (hfits.exists_piece h (List.getElem?_eq_getElem hlt)).1
  rw [hoffset] at hkept
  rw [Option.some.inj hkept]
  exact UInt32.toNat_ofNat'

/-- A field is read at the place that its word holds. -/
theorem Fits.get_eq (hfits : tuple.Fits schema) (h : tuple.values = .ok values)
    (hv : values[position]? = some value) :
    tuple.get position = tuple.readAt value.type (startOf values position % UInt32.size) := by
  obtain ⟨hoffset, -⟩ := hfits.exists_piece h hv
  have htype : tuple.schema.type? position = some value.type := by
    rw [type?_of_values h, hv]
    rfl
  rw [get, hoffset, htype, ← hfits.offset_eq h hoffset]
  rfl

/-- What a tuple of these values keeps of the places at which its fields begin. -/
structure KeepsPlaces (tuple : FieldTuple) (values : List FieldValue) : Prop where
  /-- There is a word for each field. -/
  count : tuple.offsets.size = values.length
  /-- The octets of each field stand at its place. -/
  stands : ∀ position value, values[position]? = some value → ∃ piece,
    encodeValue value = .ok piece ∧ piece <+: tuple.octets.toList.drop (startOf values position)
  /-- A word holds the remainder of the place. -/
  remainder : ∀ position offset, tuple.offsets[position]? = some offset →
    offset.toNat = startOf values position % UInt32.size
  /-- A word tells the place just if the place is small enough. -/
  told_iff : ∀ position offset, tuple.offsets[position]? = some offset →
    (offset.toNat = startOf values position ↔ startOf values position < UInt32.size)
  /-- All words tell their places just if the last field begins early enough. -/
  all_told_iff : (∀ position offset, tuple.offsets[position]? = some offset →
    offset.toNat = startOf values position) ↔ startOf values (values.length - 1) < UInt32.size

theorem Fits.keepsPlaces (hfits : tuple.Fits schema) (h : tuple.values = .ok values) :
    tuple.KeepsPlaces values := by
  have hcount : tuple.offsets.size = values.length := (hfits.readAlone h).arity
  have htold : ∀ position offset, tuple.offsets[position]? = some offset →
      (offset.toNat = startOf values position ↔ startOf values position < UInt32.size) := by
    intro position offset hoffset
    rw [hfits.offset_eq h hoffset]
    exact Nat.mod_eq_iff_lt (by decide)
  refine ⟨hcount, fun position value hv => ?_, fun position offset => hfits.offset_eq h, htold, ?_⟩
  · obtain ⟨-, before, piece, later, hoctets, hbefore, hpiece⟩ := hfits.exists_piece h hv
    refine ⟨piece, hpiece, ?_⟩
    rw [hoctets, ← hbefore, List.drop_left]
    exact List.prefix_append piece later
  · constructor
    · intro hall
      obtain rfl | hne := eq_or_ne values []
      · decide
      · have hlast : values.length - 1 < tuple.offsets.size := by
          rw [hcount]
          exact Nat.sub_lt (List.length_pos_of_ne_nil hne) Nat.one_pos
        have hoffset := Array.getElem?_eq_getElem hlast
        exact (htold _ _ hoffset).1 (hall _ _ hoffset)
    · intro hlast position offset hoffset
      have hlt : position < tuple.offsets.size := (Array.getElem?_eq_some_iff.1 hoffset).1
      refine (htold position offset hoffset).2 (Nat.lt_of_le_of_lt (startOf_mono values ?_) hlast)
      omega

/-- Values that are declared and can be counted make a tuple. -/
theorem exists_ofValues (hcount : values.length < UInt16.size)
    (htypes : values.map FieldValue.type = schema.types.toList)
    (hcontent : ∀ value ∈ values, value.content.length < UInt32.size) :
    ∃ tuple, ofValues schema values = .ok tuple := by
  obtain ⟨pieces, hw⟩ := exists_written_iff.2 hcontent
  have hencoded := encodeWithStarts_eq_ok_iff.2 ⟨pieces, ⟨hcount, htypes, hw, rfl⟩, rfl⟩
  exact ⟨_, by rw [ofValues, hencoded]; rfl⟩

/-! ## Many long fields -/

section

variable {count size place : Nat}

/-- A component number and a string of ones, given so many times. -/
def repeated (count size : Nat) : List FieldValue :=
  (List.replicate count [.nid ⟨7⟩, .bytes (List.replicate size 1)]).flatten

/-- The types of these values. -/
def repeatedSchema (count size : Nat) : Schema :=
  ⟨((repeated count size).map FieldValue.type).toArray⟩

theorem repeated_add (before after size : Nat) :
    repeated (before + after) size = repeated before size ++ repeated after size := by
  rw [repeated, List.replicate_add, List.flatten_append]
  rfl

theorem length_repeated (count size : Nat) : (repeated count size).length = count * 2 := by
  simp [repeated]

theorem sum_width_repeated (count size : Nat) :
    ((repeated count size).map FieldValue.width).sum = count * (size + 8) := by
  induction count with
  | zero => rw [Nat.zero_mul]; rfl
  | succ count ih =>
    have hone : ((repeated 1 size).map FieldValue.width).sum = size + 8 := by
      simp [repeated, FieldValue.width, FieldValue.type, FieldType.fixedWidth, FieldValue.content]
      omega
    rw [repeated_add, List.map_append, List.sum_append, ih, hone, Nat.succ_mul]

/-- A component number begins where the strings before it end. -/
theorem startOf_repeated (before : Nat) (h : before ≤ count) :
    startOf (repeated count size) (before * 2) = 2 + before * (size + 8) := by
  obtain ⟨after, rfl⟩ := Nat.exists_eq_add_of_le h
  rw [startOf, repeated_add, List.take_left' (length_repeated before size), sum_width_repeated]

theorem getElem?_repeated (before : Nat) (h : before < count) :
    (repeated count size)[before * 2]? = some (.nid ⟨7⟩) := by
  obtain ⟨after, rfl⟩ := Nat.exists_eq_add_of_le (Nat.succ_le_of_lt h)
  rw [Nat.succ_eq_add_one, Nat.add_assoc, repeated_add,
    List.getElem?_append_right (Nat.le_of_eq (length_repeated before size)), length_repeated,
    Nat.sub_self, repeated_add]
  rfl

theorem exists_ofValues_repeated (hcount : count * 2 < UInt16.size) (hsize : size < UInt32.size) :
    ∃ tuple, ofValues (repeatedSchema count size) (repeated count size) = .ok tuple := by
  refine exists_ofValues ?_ List.toList_toArray.symm fun value hvalue => ?_
  · rwa [length_repeated]
  · obtain ⟨values, hvalues, hmem⟩ := List.mem_flatten.1 hvalue
    rw [List.eq_of_mem_replicate hvalues, List.mem_pair] at hmem
    rcases hmem with rfl | rfl
    · exact (by decide : 0 < UInt32.size)
    · exact lt_of_eq_of_lt List.length_replicate hsize

/-- A component number that is looked for among the ones is read as another one. -/
theorem readAt_nid_among_ones (hmade : ofValues schema (repeated count size) = .ok tuple)
    (hcount : 1 ≤ count) (hle : 10 ≤ place) (hend : place + 4 ≤ 10 + size) :
    tuple.readAt .nid place = .ok (.nid ⟨0x01010101⟩) := by
  obtain ⟨rest, rfl⟩ := Nat.exists_eq_add_of_le hcount
  have hsecond : (repeated (1 + rest) size)[1]? = some (.bytes (List.replicate size 1)) := by
    rw [repeated_add]
    rfl
  obtain ⟨-, before, piece, later, hoctets, hbefore, hpiece⟩ :=
    (fits_of_ofValues hmade).exists_piece (values_of_ofValues hmade) hsecond
  obtain ⟨-, rfl⟩ := encodeCounted_eq_ok_iff.1 hpiece
  -- the ones begin after the first component number and the length of the string
  have hstart : startOf (repeated (1 + rest) size) 1 = 6 := by
    rw [repeated_add]
    rfl
  have hlength : (before ++ LittleEndian.octets 4 (List.replicate size (1 : UInt8)).length).length =
      10 := by
    rw [List.length_append, LittleEndian.length_octets, hbefore, hstart]
  obtain ⟨skipped, rfl⟩ := Nat.exists_eq_add_of_le hle
  have hones : (tuple.octets.extract (10 + skipped) (10 + skipped + 4)).toList = [1, 1, 1, 1] := by
    rw [Array.toList_extract, List.extract_eq_take_drop, hoctets, Nat.add_sub_cancel_left,
      List.append_assoc, ← List.append_assoc, ← List.drop_drop, List.drop_left' hlength,
      List.drop_append_of_le_length (by rw [List.length_replicate]; omega), List.drop_replicate,
      List.take_append_of_le_length (by rw [List.length_replicate]; omega), List.take_replicate,
      Nat.min_eq_left (by omega)]
    rfl
  rw [readAt, cursorAt]
  dsimp only [FieldType.fixedWidth]
  rw [hones]
  rfl

end

/-- A tuple, whether it was made of values or of octets, keeps the places of its fields as
    words. A word tells its place just if the field begins below 2^32, and all of them do if
    the last field does. -/
theorem keepsPlaces_of_made (schema : Schema) :
    (∀ values tuple, ofValues schema values = .ok tuple → tuple.KeepsPlaces values) ∧
    ∀ octets tuple, ofOctets schema octets = .ok tuple →
      ∃ values, decode schema octets = .ok values ∧ tuple.KeepsPlaces values := by
  refine ⟨fun values tuple h => (fits_of_ofValues h).keepsPlaces (values_of_ofValues h),
    fun octets tuple h => ?_⟩
  obtain ⟨rfl, hfits⟩ := fits_of_ofOctets h
  obtain ⟨values, hvalues⟩ := hfits.exists_values
  have hdecoded : decode tuple.schema tuple.octets.toList = .ok values := hvalues
  rw [hfits.readable.schema_eq] at hdecoded
  exact ⟨values, hdecoded, hfits.keepsPlaces hvalues⟩

/-- A tuple may be longer than 2^32 octets and yet keep all places, as long as its last field
    begins early enough. -/
theorem keepsPlaces_of_made_of_repeated :
    ∃ tuple, ofValues (repeatedSchema 16384 262144) (repeated 16384 262144) = .ok tuple ∧
      tuple.octets.size = 4295098370 ∧ startOf (repeated 16384 262144) 32767 = 4294836222 ∧
      (∀ position offset, tuple.offsets[position]? = some offset →
        offset.toNat = startOf (repeated 16384 262144) position) ∧
      ofOctets (repeatedSchema 16384 262144) tuple.octets.toList = .ok tuple ∧
      ∃ values, tuple.KeepsPlaces values := by
  obtain ⟨tuple, hmade⟩ : ∃ tuple,
      ofValues (repeatedSchema 16384 262144) (repeated 16384 262144) = .ok tuple :=
    exists_ofValues_repeated (by decide) (by decide)
  obtain ⟨hvalues, hoctets⟩ := keepsPlaces_of_made (repeatedSchema 16384 262144)
  have hkeeps := hvalues _ _ hmade
  have hfits := fits_of_ofValues hmade
  obtain ⟨values, -, hread⟩ := hoctets _ _ hfits
  have hlast : startOf (repeated 16384 262144) 32767 = 4294836222 := by
    rw [startOf_succ (getElem?_repeated 16383 (by decide)), startOf_repeated 16383 (by decide)]
    rfl
  refine ⟨tuple, hmade, ?_, hlast, hkeeps.all_told_iff.2 ?_, hfits, values, hread⟩
  · obtain ⟨pieces, htuple⟩ := decode_eq_ok_iff.1 (values_of_ofValues hmade)
    rw [← Array.length_toList, length_of_isTuple htuple, sum_width_repeated]
  · rw [length_repeated, hlast]
    decide

/-- One component number and one string more, and the last component number begins beyond 2^32.
    The tuple keeps another place for it, which is one among the ones, and another component
    number is read there. -/
theorem far_field_is_mistaken :
    ∃ tuple, ofValues (repeatedSchema 16385 262144) (repeated 16385 262144) = .ok tuple ∧
      tuple.values = .ok (repeated 16385 262144) ∧
      (repeated 16385 262144)[32768]? = some (.nid ⟨7⟩) ∧
      startOf (repeated 16385 262144) 32768 = 4295098370 ∧
      tuple.offsets[32768]? = some 131074 ∧
      tuple.get 32768 = .ok (.nid ⟨16843009⟩) ∧ tuple.nidAt? 32768 = some ⟨16843009⟩ := by
  obtain ⟨tuple, hmade⟩ : ∃ tuple,
      ofValues (repeatedSchema 16385 262144) (repeated 16385 262144) = .ok tuple :=
    exists_ofValues_repeated (by decide) (by decide)
  have hfits := fits_of_ofValues hmade
  have hvalues := values_of_ofValues hmade
  have hstart : startOf (repeated 16385 262144) 32768 = 4295098370 :=
    startOf_repeated 16384 (by decide)
  have hv : (repeated 16385 262144)[32768]? = some (.nid ⟨7⟩) :=
    getElem?_repeated 16384 (by decide)
  have hget : tuple.get 32768 = .ok (.nid ⟨16843009⟩) := by
    rw [hfits.get_eq hvalues hv, hstart]
    exact readAt_nid_among_ones hmade (by decide) (by decide) (by decide)
  have hnid : tuple.nidAt? 32768 = some ⟨16843009⟩ := by
    rw [nidAt?, type?_of_values hvalues, hv, hget]
    rfl
  have hoffset := (hfits.exists_piece hvalues hv).1
  rw [hstart] at hoffset
  exact ⟨tuple, hmade, hvalues, hv, hstart, hoffset, hget, hnid⟩

end FieldTuple

end Bitemporal
