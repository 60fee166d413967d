import Bitemporal.Proofs.Bytes.Extension
import Bitemporal.Proofs.Field.Access

/-!
# Tuples that end where they should not

Of the octets of a tuple, no proper part from the beginning is a tuple of the same schema,
nor is anything longer that begins with them (`affix_corrupt`). Their number of fields is
still there, unless they end before it, so they are never refused for that. What is left
depends on the readers of the fields, which are steady (`steady_value`): fields that are
read to the end of the octets end too early when any octets are missing, and are read just
so when more follow.

The octets are cut off wherever this may be: in the number of fields, in a length, or in a
content, which is not looked at before it is there as a whole.
-/

namespace Bitemporal.Field

open Reader (Reads Steady)

variable {α : Type} {schema : Schema} {octets : List UInt8} {values : List FieldValue}
  {items : List α} {read : FieldType → Reader Corruption α}

/-- The faults of octets that end inside a tuple. -/
inductive CutShort : Corruption → Prop
  /-- They end inside a number, an identifier or a truth value. -/
  | inside : CutShort .truncatedTuple
  /-- They end inside a content. -/
  | content {length remaining : Nat} : remaining < length →
      CutShort (.fieldOverrun length remaining)

/-! ### Steady readers -/

theorem steady_word : Steady CutShort (Reader.uint32 : Reader Corruption UInt32) :=
  .uint32 .inside

theorem steady_counted : Steady CutShort readCounted := by
  rw [readCounted_eq_bind]
  exact steady_word.bind fun count => .takeOr _ _ fun c hlt => .content hlt

theorem steady_boolean : Steady CutShort readBoolean := by
  refine (Steady.octet .inside).bind fun octet => ?_
  split
  · exact .pure _
  · exact .pure _
  · exact .throw _

theorem steady_uuid : Steady CutShort readUuid := by
  refine (Steady.take .inside 16).bind fun l => ?_
  split
  · exact .pure _
  · exact .throw _

theorem steady_text : Steady CutShort readText := by
  refine steady_counted.bind fun l => ?_
  split
  · exact .pure _
  · exact .throw _

theorem steady_value (type : FieldType) : Steady CutShort (readValue type) := by
  cases type with
  | nid => exact (Steady.int32 .inside).map _
  | integer => exact (Steady.int32 .inside).map _
  | long => exact (Steady.int64 .inside).map _
  | float => exact steady_word.map _
  | boolean => exact steady_boolean.map _
  | uuid => exact steady_uuid.map _
  | instant => exact (Steady.int64 .inside).map _
  | string => exact steady_text.map _
  | bytes => exact steady_counted.map _

/-! ### Shorter and longer tuples -/

theorem readTuple_take (h : ∀ type, Steady CutShort (read type))
    (hok : readTuple read schema octets = .ok items) {n : Nat} (hn : n < octets.length) :
    ∃ damage, CutShort damage ∧
      readTuple read schema (octets.take n) = .error (.corruption damage) := by
  obtain ⟨hlt, rest, c, rfl, hread, hend⟩ := readTuple_eq_ok_iff.1 hok
  have hlength : (LittleEndian.octets 2 schema.arity).length = 2 := LittleEndian.length_octets _ _
  by_cases hcount : n < 2
  · -- they end inside the number of fields
    rw [List.take_append_of_le_length (by omega)]
    have hword := uint16_octets hlt []
    rw [List.append_nil] at hword
    obtain ⟨damage, hdamage, hcut⟩ :=
      (Steady.uint16 CutShort.inside).cut hword rfl (n := n) (by omega)
    refine ⟨damage, hdamage, ?_⟩
    rw [readTuple, Cursor.start, hcut]
  · rw [List.length_append] at hn
    obtain ⟨damage, hdamage, hcut⟩ := (Steady.each h _).cut hread hend (n := n - 2) (by omega)
    refine ⟨damage, hdamage, ?_⟩
    rw [List.take_append, hlength, List.take_of_length_le (by omega), readTuple_append hlt, hcut]

theorem readTuple_padded (h : ∀ type, Steady CutShort (read type))
    (hok : readTuple read schema octets = .ok items) {more : List UInt8} (hmore : more ≠ []) :
    readTuple read schema (octets ++ more) = .error (.corruption (.tupleTrailing more.length)) := by
  obtain ⟨hlt, rest, c, rfl, hread, hend⟩ := readTuple_eq_ok_iff.1 hok
  rw [List.append_assoc, readTuple_append hlt, (Steady.each h _).pad hread hend]
  exact if_neg (mt List.isEmpty_iff.1 hmore)

/-- The octets of a tuple are damaged when any of them are cut off at the end, and when any are
    added, whether they are read at once or taken to be read field by field: they end inside
    the tuple, or there are as many octets after it as were added. -/
theorem affix_corrupt (h : decode schema octets = .ok values) :
    (∀ n < octets.length, ∃ damage, CutShort damage ∧
      decode schema (octets.take n) = .error (.corruption damage) ∧
      FieldTuple.ofOctets schema (octets.take n) = .error (.corruption damage)) ∧
    ∀ more ≠ [],
      decode schema (octets ++ more) = .error (.corruption (.tupleTrailing more.length)) ∧
      FieldTuple.ofOctets schema (octets ++ more) =
        .error (.corruption (.tupleTrailing more.length)) := by
  constructor
  · intro n hn
    obtain ⟨damage, hdamage, hcut⟩ := readTuple_take steady_value h hn
    exact ⟨damage, hdamage, hcut, FieldTuple.ofOctets_eq_error_iff.2 hcut⟩
  · intro more hmore
    have hpadded := readTuple_padded steady_value h hmore
    exact ⟨hpadded, FieldTuple.ofOctets_eq_error_iff.2 hpadded⟩

/-- Cut off inside the only character of a text, and padded with what would be another field. -/
theorem affix_corrupt_of_character :
    let schema : Schema := ⟨#[.string, .boolean]⟩
    let octets : List UInt8 := [2, 0, 2, 0, 0, 0, 0xC3, 0xA9, 1]
    decode schema octets = .ok [.string "é", .boolean true] ∧
      (∃ damage, CutShort damage ∧ decode schema (octets.take 7) = .error (.corruption damage) ∧
        FieldTuple.ofOctets schema (octets.take 7) = .error (.corruption damage)) ∧
      decode schema (octets ++ [0]) = .error (.corruption (.tupleTrailing 1)) ∧
      FieldTuple.ofOctets schema (octets ++ [0]) = .error (.corruption (.tupleTrailing 1)) := by
  intro schema octets
  have hread : decode schema octets = .ok [.string "é", .boolean true] :=
    decode_eq_ok_iff.2 (encode_eq_ok_iff.1 rfl)
  exact ⟨hread, (affix_corrupt hread).1 7 (by decide), (affix_corrupt hread).2 [0] nofun⟩

end Bitemporal.Field
