import Bitemporal.Proofs.Field.Layout

/-!
# Single fields

A tuple reads one field without the others: it goes to the place that it keeps for the
field, and looks at no more octets than the type of the field may need. The places are
kept in 32-bit words. As long as the words suffice, a field that is read alone is the one
that is read with the others (`FieldTuple.get_eq_ok`), and so is the component number at a
position (`FieldTuple.nidAt?_eq_some_iff`). It is enough that the word for the field itself
suffices (`FieldTuple.get_eq_ok_of_startOf`), whatever becomes of later ones.

So a tuple, whether it was made of values or of octets, is the same to those who read it
field by field and to those who read it at once (`FieldTuple.read_alone_or_at_once`).
-/

namespace Bitemporal

namespace Field

variable {schema : Schema} {values : List FieldValue} {pieces : List (List UInt8)}
  {octets : List UInt8} {value : FieldValue} {position : Nat}

/-- The piece of a value stands at the position of the value. -/
theorem Written.split (hw : Written values pieces) (hv : values[position]? = some value) :
    ∃ before piece later, pieces = before ++ piece :: later ∧ before.length = position ∧
      encodeValue value = .ok piece := by
  induction hw generalizing position with
  | nil => cases hv
  | @cons first piece values pieces hfirst hw ih =>
    cases position with
    | zero =>
      obtain rfl := Option.some.inj hv
      exact ⟨[], piece, pieces, rfl, rfl, hfirst⟩
    | succ position =>
      obtain ⟨before, piece', later, rfl, rfl, hpiece⟩ := ih hv
      exact ⟨piece :: before, piece', later, rfl, rfl, hpiece⟩

/-- A piece begins where those before it end. -/
theorem getElem?_placed (start : Nat) (before : List (List UInt8)) (piece : List UInt8)
    (later : List (List UInt8)) :
    (placed start (before ++ piece :: later))[before.length]? =
      some (start + before.flatten.length, piece) := by
  induction before generalizing start with
  | nil => rfl
  | cons first before ih =>
    rw [List.cons_append, placed, List.length_cons, List.getElem?_cons_succ, ih,
      List.flatten_cons, List.length_append, Nat.add_assoc]

theorem length_placed (start : Nat) (pieces : List (List UInt8)) :
    (placed start pieces).length = pieces.length := by
  induction pieces generalizing start with
  | nil => rfl
  | cons piece pieces ih => rw [placed, List.length_cons, ih, List.length_cons]

/-- A field begins where the pieces before it end. -/
theorem startOf_length {before later : List (List UInt8)} {piece : List UInt8}
    (hw : Written values (before ++ piece :: later)) :
    startOf values before.length = 2 + before.flatten.length := by
  rw [startOf, List.map_take, ← hw.map_length, List.map_append, List.take_left' (List.length_map _),
    List.length_flatten]

theorem startOf_le_length (h : IsTuple schema values pieces octets) (position : Nat) :
    startOf values position ≤ octets.length := by
  have hsum := congrArg (fun l => (l.map FieldValue.width).sum)
    (List.take_append_drop position values)
  simp only [List.map_append, List.sum_append] at hsum
  rw [length_of_isTuple h, startOf]
  omega

/-- The places of the fields are found in the octets of tuples, and in no others. -/
theorem starts_eq_ok_iff {places : List Nat} :
    starts schema octets = .ok places ↔ ∃ values pieces,
      IsTuple schema values pieces octets ∧ places = (placed 2 pieces).map Prod.fst := by
  rw [starts_eq, readTuple_eq_ok_iff]
  constructor
  · rintro ⟨hlt, rest, c, rfl, hc, hend⟩
    obtain ⟨values, pieces, htypes, hw, hpasses, rfl⟩ := each_readStart_eq_ok_iff.1 hc
    have hrest : rest = pieces.flatten := by
      have h := hpasses.1
      rwa [hend, List.append_nil] at h
    rw [arity_eq_length htypes] at hlt ⊢
    exact ⟨values, pieces, ⟨hlt, htypes, hw, by rw [hrest]⟩, rfl⟩
  · rintro ⟨values, pieces, ⟨hlt, htypes, hw, rfl⟩, rfl⟩
    rw [arity_eq_length htypes]
    exact ⟨hlt, _, ⟨2 + pieces.flatten.length, []⟩, rfl, each_readStart_eq_ok_iff.2
      ⟨values, pieces, htypes, hw, ⟨(List.append_nil _).symm, rfl⟩, rfl⟩, rfl⟩

end Field

namespace FieldTuple

open Bitemporal.Field

variable {schema : Schema} {tuple : FieldTuple} {values : List FieldValue} {value : FieldValue}
  {position : Nat} {n : Nid}

/-- What a tuple consists of: the pieces of its values, and their places as words. -/
theorem Fits.pieces (h : tuple.Fits schema) :
    tuple.schema = schema ∧ ∃ values pieces, IsTuple schema values pieces tuple.octets.toList ∧
      tuple.offsets = (((placed 2 pieces).map Prod.fst).map UInt32.ofNat).toArray := by
  rw [Fits, ofOctets] at h
  cases hs : starts schema tuple.octets.toList with
  | error e =>
    rw [hs] at h
    cases h
  | ok places =>
    rw [hs] at h
    obtain ⟨values, pieces, htuple, rfl⟩ := starts_eq_ok_iff.1 hs
    have heq := Except.ok.inj h
    exact ⟨congrArg FieldTuple.schema heq.symm, values, pieces, htuple,
      congrArg FieldTuple.offsets heq.symm⟩

/-- All fields of a tuple can be read. -/
theorem Fits.exists_values (h : tuple.Fits schema) : ∃ values, tuple.values = .ok values := by
  obtain ⟨rfl, values, pieces, htuple, -⟩ := h.pieces
  exact ⟨values, decode_eq_ok_iff.2 ⟨pieces, htuple⟩⟩

/-- The fields of a tuple are the values that it was made of. -/
theorem values_of_ofValues (h : ofValues schema values = .ok tuple) :
    tuple.values = .ok values := by
  rw [ofValues] at h
  cases he : encodeWithStarts schema values with
  | error e =>
    rw [he] at h
    cases h
  | ok p =>
    rw [he] at h
    obtain rfl := Except.ok.inj h
    obtain ⟨pieces, htuple, -⟩ := encodeWithStarts_eq_ok_iff.1 he
    exact decode_eq_ok_iff.2 ⟨pieces, htuple⟩

theorem types_of_values (h : tuple.values = .ok values) :
    values.map FieldValue.type = tuple.schema.types.toList := by
  obtain ⟨pieces, -, htypes, -⟩ := decode_eq_ok_iff.1 h
  exact htypes

theorem type?_of_values (h : tuple.values = .ok values) :
    tuple.schema.type? position = (values[position]?).map FieldValue.type :=
  type?_eq_of_types (types_of_values h)

/-- Where a field is read, the piece of its value stands. -/
theorem cursorAt_eq {piece before later : List UInt8}
    (hoctets : tuple.octets.toList = before ++ (piece ++ later))
    (hpiece : encodeValue value = .ok piece) :
    ∃ rest, tuple.cursorAt value.type before.length = ⟨before.length, piece ++ rest⟩ := by
  rw [cursorAt]
  split
  · next width hw =>
    have hwidth : piece.length = width := by
      rw [length_of_encodeValue hpiece, FieldValue.width, hw]
      rfl
    refine ⟨[], ?_⟩
    rw [Array.toList_extract, List.extract_eq_take_drop, hoctets, List.drop_left,
      Nat.add_sub_cancel_left, ← hwidth, List.take_left, List.append_nil]
  · refine ⟨later, ?_⟩
    have hsize : tuple.octets.size = before.length + (piece ++ later).length := by
      rw [← Array.length_toList, hoctets, List.length_append]
    rw [Array.toList_extract, List.extract_eq_take_drop, hoctets, List.drop_left, hsize,
      Nat.add_sub_cancel_left, List.take_length]

/-- A tuple keeps the place of a field as a word, and has the piece of its value there. -/
theorem Fits.exists_piece (hfits : tuple.Fits schema) (h : tuple.values = .ok values)
    (hv : values[position]? = some value) :
    tuple.offsets[position]? = some (UInt32.ofNat (startOf values position)) ∧
      ∃ before piece later, tuple.octets.toList = before ++ (piece ++ later) ∧
        before.length = startOf values position ∧ encodeValue value = .ok piece := by
  obtain ⟨rfl, values', pieces, htuple, hoffsets⟩ := hfits.pieces
  obtain rfl : values' = values :=
    Except.ok.inj ((decode_eq_ok_iff.2 ⟨pieces, htuple⟩).symm.trans h)
  obtain ⟨-, -, hw, hoctets⟩ := htuple
  obtain ⟨before, piece, later, rfl, rfl, hpiece⟩ := hw.split hv
  rw [startOf_length hw]
  refine ⟨?_, LittleEndian.octets 2 values'.length ++ before.flatten, piece, later.flatten, ?_, ?_,
    hpiece⟩
  · rw [hoffsets, List.getElem?_toArray, List.getElem?_map, List.getElem?_map, getElem?_placed]
    rfl
  · rw [hoctets, List.flatten_append, List.flatten_cons, List.append_assoc]
  · rw [List.length_append, LittleEndian.length_octets]

/-- A field that is read alone is the one that is read with the others, if the word that the
    tuple keeps for its place suffices. -/
theorem get_eq_ok_of_startOf (hfits : tuple.Fits schema) (h : tuple.values = .ok values)
    (hv : values[position]? = some value) (hstart : startOf values position < UInt32.size) :
    tuple.get position = .ok value := by
  obtain ⟨hoffset, before, piece, later, hoctets, hbefore, hpiece⟩ := hfits.exists_piece h hv
  have htype : tuple.schema.type? position = some value.type := by
    rw [type?_of_values h, hv]
    rfl
  have hword : (UInt32.ofNat (startOf values position)).toNat = before.length :=
    (UInt32.toNat_ofNat_of_lt' hstart).trans hbefore.symm
  obtain ⟨rest, hcursor⟩ := cursorAt_eq hoctets hpiece
  have hread := (reads_value value.type ⟨before.length, piece ++ rest⟩ value
    ⟨before.length + piece.length, rest⟩).2 ⟨piece, ⟨rfl, hpiece⟩, rfl, rfl⟩
  rw [get, hoffset, htype]
  dsimp only
  rw [hword, hcursor, hread]

theorem startOf_lt (hsize : tuple.octets.size < UInt32.size) (h : tuple.values = .ok values)
    (position : Nat) : startOf values position < UInt32.size := by
  obtain ⟨pieces, htuple⟩ := decode_eq_ok_iff.1 h
  exact Nat.lt_of_le_of_lt (startOf_le_length htuple position) hsize

/-- A field that is read alone is the one that is read with the others. -/
theorem get_eq_ok (hfits : tuple.Fits schema) (hsize : tuple.octets.size < UInt32.size)
    (h : tuple.values = .ok values) (hv : values[position]? = some value) :
    tuple.get position = .ok value :=
  get_eq_ok_of_startOf hfits h hv (startOf_lt hsize h position)

/-- What can be read of a tuple of a schema: all its fields at once, and each of them alone
    as long as its place is a word. -/
structure Readable (schema : Schema) (tuple : FieldTuple) : Prop where
  schema_eq : tuple.schema = schema
  arity_eq : tuple.arity = schema.arity
  decodes : ∃ values, decode schema tuple.octets.toList = .ok values ∧
    (tuple.octets.size < UInt32.size → ∀ position, position < tuple.arity →
      ∃ value, values[position]? = some value ∧ tuple.get position = .ok value)

theorem Fits.readable (hfits : tuple.Fits schema) : tuple.Readable schema := by
  obtain ⟨rfl, values, pieces, htuple, hoffsets⟩ := hfits.pieces
  have hvalues : tuple.values = .ok values := decode_eq_ok_iff.2 ⟨pieces, htuple⟩
  have harity : tuple.arity = values.length := by
    rw [arity, hoffsets, List.size_toArray, List.length_map, List.length_map, length_placed]
    exact htuple.2.2.1.length_eq.symm
  refine ⟨rfl, harity.trans (arity_eq_length htuple.2.1).symm, values, hvalues,
    fun hsize position hlt => ?_⟩
  have hv : values[position]? = some values[position] := List.getElem?_eq_getElem (harity ▸ hlt)
  exact ⟨_, hv, get_eq_ok hfits hsize hvalues hv⟩

/-- The component number at a position is that of the value there, if any. -/
theorem nidAt?_eq_of_startOf (hfits : tuple.Fits schema) (h : tuple.values = .ok values)
    (hv : values[position]? = some value) (hstart : startOf values position < UInt32.size) :
    tuple.nidAt? position = value.nid? := by
  rw [nidAt?, type?_of_values h, hv, get_eq_ok_of_startOf hfits h hv hstart]
  cases value <;> rfl

theorem nidAt?_eq_bind (hfits : tuple.Fits schema) (hsize : tuple.octets.size < UInt32.size)
    (h : tuple.values = .ok values) (position : Nat) :
    tuple.nidAt? position = (values[position]?).bind FieldValue.nid? := by
  cases hv : values[position]? with
  | none =>
    rw [nidAt?, type?_of_values h, hv]
    rfl
  | some value => exact nidAt?_eq_of_startOf hfits h hv (startOf_lt hsize h position)

/-- The component number at a position is the one that stands there among all fields. -/
theorem nidAt?_eq_some_iff (hfits : tuple.Fits schema) (hsize : tuple.octets.size < UInt32.size)
    (h : tuple.values = .ok values) :
    tuple.nidAt? position = some n ↔ values[position]? = some (.nid n) := by
  rw [nidAt?_eq_bind hfits hsize h]
  cases values[position]? with
  | none => simp
  | some value => cases value <;> simp [FieldValue.nid?]

theorem filterMap_range_getElem? {β : Type} (f : FieldValue → Option β)
    (values : List FieldValue) :
    (List.range values.length).filterMap (fun position => (values[position]?).bind f) =
      values.filterMap f := by
  have hsome : (List.range values.length).map (fun position => values[position]?) =
      values.map some := List.ext_getElem (by simp) (by simp)
  calc (List.range values.length).filterMap (fun position => (values[position]?).bind f)
      = ((List.range values.length).map fun position => values[position]?).filterMap
          (Option.bind · f) := by rw [List.filterMap_map]; rfl
    _ = values.filterMap f := by rw [hsome, List.filterMap_map]; rfl

/-- The component numbers of a tuple are those among its fields, in their order. -/
theorem referencedNids_eq (hfits : tuple.Fits schema) (hsize : tuple.octets.size < UInt32.size)
    (h : tuple.values = .ok values) :
    tuple.referencedNids = values.filterMap FieldValue.nid? := by
  -- a position that is declared otherwise has no number, so it need not be left out
  have hdeclared (position : Nat) :
      (if decide (tuple.schema.type? position = some .nid) = true then tuple.nidAt? position
        else none) = (values[position]?).bind FieldValue.nid? := by
    rw [← nidAt?_eq_bind hfits hsize h]
    split
    · rfl
    · next hother => rw [nidAt?, if_neg (by simpa using hother)]
  rw [referencedNids, Schema.nidPositions, List.filterMap_filter, funext hdeclared,
    arity_eq_length (types_of_values h), filterMap_range_getElem?]

/-! ### Field by field and at once -/

theorem ofOctets_eq_error_iff {octets : List UInt8} {e : Error} :
    ofOctets schema octets = .error e ↔ decode schema octets = .error e := by
  rw [← starts_eq_error_iff, ofOctets]
  cases starts schema octets <;> simp [Except.map]

theorem exists_ofOctets_iff {octets : List UInt8} :
    (∃ tuple, ofOctets schema octets = .ok tuple) ↔
      ∃ values, decode schema octets = .ok values := by
  cases ho : ofOctets schema octets with
  | error e => simp [ofOctets_eq_error_iff.1 ho]
  | ok tuple =>
    cases hd : decode schema octets with
    | error e =>
      rw [ofOctets_eq_error_iff.2 hd] at ho
      cases ho
    | ok values => simp

/-- A field is refused as an operation just if there is none at the position. -/
theorem get_eq_invalidOperation_iff (hfits : tuple.Fits schema) {refusal : Refusal} :
    tuple.get position = .error (.invalidOperation refusal) ↔
      tuple.arity ≤ position ∧ refusal = .noSuchField position tuple.arity := by
  have harity : tuple.arity = tuple.schema.types.size := by
    have h := hfits.readable
    rw [h.arity_eq, ← h.schema_eq, Schema.arity]
  by_cases hlt : position < tuple.arity
  · -- there are a place and a type, so what is refused is what stands there
    rw [get, Array.getElem?_eq_getElem hlt, Schema.type?, Array.getElem?_eq_getElem (harity ▸ hlt)]
    dsimp only
    refine iff_of_false ?_ fun h => Nat.not_lt.2 h.1 hlt
    split <;> simp
  · rw [get, Array.getElem?_eq_none (Nat.not_lt.1 hlt)]
    simp [Nat.not_lt.1 hlt, eq_comm]

/-- What is read of a tuple field by field, where `values` are read of it at once. -/
structure ReadAlone (tuple : FieldTuple) (values : List FieldValue) : Prop where
  arity : tuple.arity = values.length
  field : ∀ position value, values[position]? = some value → startOf values position < UInt32.size →
    tuple.get position = .ok value
  nid : ∀ position value, values[position]? = some value → startOf values position < UInt32.size →
    (∀ n, tuple.nidAt? position = some n ↔ value = .nid n) ∧
      (tuple.schema.type? position = some .nid ↔ ∃ n, value = .nid n)
  nids : tuple.octets.size < UInt32.size → tuple.referencedNids = values.filterMap FieldValue.nid?
  outside : ∀ position refusal, tuple.get position = .error (.invalidOperation refusal) ↔
    tuple.arity ≤ position ∧ refusal = .noSuchField position tuple.arity
  again : ofOctets tuple.schema tuple.octets.toList = .ok tuple

theorem Fits.readAlone (hfits : tuple.Fits schema) (h : tuple.values = .ok values) :
    tuple.ReadAlone values := by
  have hreadable := hfits.readable
  refine ⟨?_, fun position value => get_eq_ok_of_startOf hfits h,
    fun position value hv hstart => ?_, fun hsize => referencedNids_eq hfits hsize h,
    fun position refusal => get_eq_invalidOperation_iff hfits, ?_⟩
  · rw [hreadable.arity_eq, ← hreadable.schema_eq, arity_eq_length (types_of_values h)]
  · rw [nidAt?_eq_of_startOf hfits h hv hstart, type?_of_values h, hv]
    cases value <;> simp [FieldValue.nid?, FieldValue.type]
  · rw [hreadable.schema_eq]
    exact hfits

/-- To read octets field by field is as good as to read them at once.

* They are taken as a tuple just if they can be read, and are refused for the same fault
  otherwise.
* All fields of a tuple can be read, whether it was made of values or of octets. Each that
  begins at a place that a word can hold is read alone as it is read with the others, and so
  is its component number, which it has just if one is declared. All component numbers are
  found if the octets are no more than a word can count. A position is refused just if it is
  beyond the last field, and the octets of the tuple give the same tuple again. -/
theorem read_alone_or_at_once (schema : Schema) :
    (∀ octets, ((∃ tuple, ofOctets schema octets = .ok tuple) ↔
        ∃ values, decode schema octets = .ok values) ∧
      ∀ e, ofOctets schema octets = .error e ↔ decode schema octets = .error e) ∧
    ∀ tuple, ((∃ values, ofValues schema values = .ok tuple) ∨
        ∃ octets, ofOctets schema octets = .ok tuple) →
      tuple.schema = schema ∧ ∃ values, tuple.values = .ok values ∧ tuple.ReadAlone values := by
  refine ⟨fun octets => ⟨exists_ofOctets_iff, fun e => ofOctets_eq_error_iff⟩,
    fun tuple hmade => ?_⟩
  have hfits : tuple.Fits schema := by
    obtain ⟨values, hvalues⟩ | ⟨octets, hoctets⟩ := hmade
    · exact fits_of_ofValues hvalues
    · exact (fits_of_ofOctets hoctets).2
  obtain ⟨values, hvalues⟩ := hfits.exists_values
  exact ⟨hfits.readable.schema_eq, values, hvalues, hfits.readAlone hvalues⟩

/-- Fields of any width, with one component named twice. -/
def sampleSchema : Schema :=
  ⟨#[.nid, .string, .boolean, .nid, .bytes, .nid]⟩

@[inherit_doc sampleSchema]
def sampleValues : List FieldValue :=
  [.nid ⟨7⟩, .string "é", .boolean true, .nid ⟨7⟩, .bytes [], .nid ⟨-2⟩]

theorem read_alone_or_at_once_of_sample :
    ∃ tuple, ofValues sampleSchema sampleValues = .ok tuple ∧
      tuple.get 4 = .ok (.bytes []) ∧ tuple.nidAt? 3 = some ⟨7⟩ ∧ tuple.nidAt? 1 = none ∧
      tuple.referencedNids = [⟨7⟩, ⟨7⟩, ⟨-2⟩] ∧
      tuple.get 6 = .error (.invalidOperation (.noSuchField 6 6)) ∧
      ofOctets sampleSchema tuple.octets.toList = .ok tuple := by
  obtain ⟨tuple, htuple, hsize⟩ : ∃ tuple, ofValues sampleSchema sampleValues = .ok tuple ∧
    tuple.octets.size < UInt32.size := ⟨_, rfl, by decide⟩
  obtain ⟨hschema, values, hvalues, halone⟩ :=
    (read_alone_or_at_once sampleSchema).2 tuple (.inl ⟨_, htuple⟩)
  obtain rfl : sampleValues = values :=
    Except.ok.inj ((values_of_ofValues htuple).symm.trans hvalues)
  have hnone : tuple.nidAt? 1 = none := Option.eq_none_iff_forall_ne_some.2 fun n hn =>
    nomatch ((halone.nid 1 (.string "é") rfl (by decide)).1 n).1 hn
  exact ⟨tuple, htuple, halone.field 4 _ rfl (by decide),
    ((halone.nid 3 (.nid ⟨7⟩) rfl (by decide)).1 ⟨7⟩).2 rfl, hnone, halone.nids hsize,
    (halone.outside 6 _).2 ⟨Nat.le_of_eq halone.arity, congrArg _ halone.arity.symm⟩,
    hschema ▸ halone.again⟩

end FieldTuple

end Bitemporal
