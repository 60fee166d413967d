import Bitemporal.Proofs.StampTable.Interning
import Mathlib

/-!
# Refilling a table

A row is taken into a table if it repeats what the table says, or if it continues the table
with a stamp that has a time of its own (`StampTable.Takes`). The rows of a record are taken
in one after the other (`TakesIn`), each into the table that those before it have left. A
record is read just if all its rows are taken in (`restore_eq_ok_iff`). Otherwise the first
row that is not taken in stops the reading, and the rows before it stay
(`restore_eq_error_iff`).

So to restore the rows of a table changes nothing in what has become of the table
(`GrowsTo.restore_rows`). The numbers are 32-bit words: beyond them the rows of a table start
again from zero, where the reading stops.

A stamp that comes in is what its number stands for just as long as the words suffice
(`stamp_push_iff`), and nothing stops a table from growing beyond them
(`interned_stamp_is_lost`).
-/

namespace Bitemporal.StampTable

open Store (foundingStamp)

variable {s t t' t₁ : StampTable} {stamp : Stamp} {seq : StampSeq} {row : Record.StampRow}
  {rows before after : List Record.StampRow} {e : Error}

/-! ## Taking rows in -/

/-- A row is taken into a table: it repeats what its number stands for, or it comes right
    after the last stamp. -/
inductive Takes (t : StampTable) (row : Record.StampRow) : StampTable → Prop
  | repeated : t.stamp row.seq = .ok row.stamp → Takes t row t
  | continued : row.seq.val.toNat = t.size + 1 → row.stamp.isUncommitted = false →
      Takes t row (t.push row.stamp)

/-- Rows are taken in one after the other. -/
inductive TakesIn : StampTable → List Record.StampRow → StampTable → Prop
  | nil (t : StampTable) : TakesIn t [] t
  | cons {t t₁ t' : StampTable} {row : Record.StampRow} {rows : List Record.StampRow} :
      t.Takes row t₁ → TakesIn t₁ rows t' → TakesIn t (row :: rows) t'

theorem Takes.restoreRow_eq (h : t.Takes row t') : t.restoreRow row = .ok t' := by
  rw [restoreRow]
  cases h with
  | repeated hs =>
    obtain ⟨hzero, hs⟩ := stamp_eq_ok hs
    simp [hzero, hs]
  | continued hseq hc =>
    have hzero : row.seq.val ≠ 0 := by
      intro e
      rw [e] at hseq
      cases hseq
    rw [push, ← eq_seqOfPlace hseq]
    simp [hzero, hseq, hc, size]

theorem restoreRow_eq_ok_iff : t.restoreRow row = .ok t' ↔ t.Takes row t' := by
  refine ⟨fun h => ?_, Takes.restoreRow_eq⟩
  obtain rfl | ⟨rfl, hseq, hc⟩ := restoreRow_eq_ok h
  · exact .repeated (stamp_of_restoreRow h)
  · exact .continued hseq hc

/-- A row that is refused is not taken in, whatever the table were to become. -/
theorem not_takes_of_restoreRow (h : t.restoreRow row = .error e) (t' : StampTable) :
    ¬t.Takes row t' := by
  intro htakes
  rw [htakes.restoreRow_eq] at h
  cases h

/-! ## Reading records -/

/-- Once rows are taken in, the reading goes on from the table that they leave. -/
theorem TakesIn.restore_append (h : t.TakesIn before t') (after : List Record.StampRow) :
    t.restore (before ++ after) = t'.restore after := by
  induction h with
  | nil => rfl
  | cons hrow _ ih =>
    rw [List.cons_append, restore, hrow.restoreRow_eq]
    exact ih

/-- A record is read just if all its rows are taken in. -/
theorem restore_eq_ok_iff : t.restore rows = (.ok (), t') ↔ t.TakesIn rows t' := by
  constructor
  · intro h
    induction rows generalizing t with
    | nil =>
      obtain rfl := congrArg Prod.snd h
      exact .nil t
    | cons row rest ih =>
      rw [restore] at h
      split at h
      · cases h
      · next t₁ hrow => exact .cons (restoreRow_eq_ok_iff.1 hrow) (ih h)
  · intro h
    simpa [restore] using h.restore_append []

/-- The reading stops at the first row that is refused, with the table that the rows before
    it leave. -/
theorem restore_eq_error_iff : t.restore rows = (.error e, t') ↔
    ∃ before row after, rows = before ++ row :: after ∧ t.TakesIn before t' ∧
      t'.restoreRow row = .error e := by
  constructor
  · intro h
    induction rows generalizing t with
    | nil => cases h
    | cons row rest ih =>
      rw [restore] at h
      split at h
      · next hrow =>
        obtain ⟨he, rfl⟩ := Prod.mk.inj h
        obtain rfl := Except.error.inj he
        exact ⟨[], row, rest, rfl, .nil t, hrow⟩
      · next t₁ hrow =>
        obtain ⟨before, stopping, after, rfl, hbefore, hstops⟩ := ih h
        exact ⟨row :: before, stopping, after, rfl,
          .cons (restoreRow_eq_ok_iff.1 hrow) hbefore, hstops⟩
  · rintro ⟨before, row, after, rfl, hbefore, hstops⟩
    rw [hbefore.restore_append, restore, hstops]

/-- What a table says already is taken in and leaves the table as it is. -/
theorem Holds.takesIn (h : t.Holds rows) : t.TakesIn rows t := by
  induction rows with
  | nil => exact .nil t
  | cons row rest ih =>
    obtain ⟨hrow, hrest⟩ := List.forall_mem_cons.1 h
    exact .cons (.repeated hrow) (ih hrest)

/-! ## The rows of a table -/

theorem getElem?_rows (t : StampTable) (place : Nat) :
    t.rows[place]? = (t.stamps[place]?).map fun stamp => { seq := seqOfPlace place, stamp } := by
  simp only [rows, List.getElem?_map, List.getElem?_zipIdx, Option.map_map, Function.comp_def,
    Nat.zero_add]

/-- The rows for which there are numbers are what the table says. -/
theorem holds_take_rows (t : StampTable) : t.Holds (t.rows.take (UInt32.size - 1)) := by
  intro row hrow
  obtain ⟨place, hplace⟩ := List.mem_iff_getElem?.1 hrow
  rw [List.getElem?_take, Option.ite_none_right_eq_some, getElem?_rows] at hplace
  obtain ⟨hlt, hplace⟩ := hplace
  obtain ⟨stamp, hs, rfl⟩ := Option.map_eq_some_iff.1 hplace
  exact stamp_seqOfPlace (Nat.add_lt_of_lt_sub hlt) hs

/-- To restore the rows of a table changes nothing in what has become of the table, and they
    are all taken in if there are enough numbers for them. -/
theorem GrowsTo.restore_rows (h : s.GrowsTo t) :
    (t.restore s.rows).2 = t ∧ (s.size < UInt32.size → t.restore s.rows = (.ok (), t)) := by
  refine ⟨?_, fun hsize => restore_eq_ok_iff.2 ((holds_rows hsize).grow h).takesIn⟩
  rw [← List.take_append_drop (UInt32.size - 1) s.rows,
    ((holds_take_rows s).grow h).takesIn.restore_append]
  cases hrest : s.rows.drop (UInt32.size - 1) with
  | nil => rfl
  | cons row rest =>
    -- the first number that is too great is zero
    have hrow : s.rows[UInt32.size - 1]? = some row := by
      rw [← Nat.add_zero (UInt32.size - 1), ← List.getElem?_drop, hrest]
      rfl
    rw [getElem?_rows] at hrow
    obtain ⟨stamp, -, rfl⟩ := Option.map_eq_some_iff.1 hrow
    rfl

/-! ## Runs -/

/-- A table that is not reset only grows. Whatever has been interned and restored:

    * a stamp that has a time of its own is interned under a number of a place at which it
      stands, and the table stays as it is or has this one stamp more, at its end;
    * a stamp is looked up if it stands in the table, under the number of its last place;
    * what a number stands for does not change;
    * a record is read if all its rows are taken in, and otherwise up to the first row that is
      not;
    * restoring the rows that the table has, or had before, changes nothing.

    As long as the 32-bit words suffice, a number of a place stands for the stamp that is
    there, and all rows of a table are taken in. -/
theorem run_appends {ops : List Operation} (hreset : .reset ∉ ops) :
    (∀ stamp, stamp.isUncommitted = false → ∃ seq t',
      (empty.run ops).intern stamp = .ok (seq, t') ∧
      t'.Places seq stamp ∧ (t'.size < UInt32.size → t'.stamp seq = .ok stamp) ∧
      (t' = empty.run ops ∨
        t' = (empty.run ops).push stamp ∧ seq = seqOfPlace (empty.run ops).size)) ∧
    (∀ stamp, (empty.run ops).seq? stamp =
      (lastPlace? stamp (empty.run ops).stamps).map seqOfPlace) ∧
    (∀ stamp seq, (empty.run ops).seq? stamp = some seq → (empty.run ops).Places seq stamp ∧
      ((empty.run ops).size < UInt32.size → (empty.run ops).stamp seq = .ok stamp)) ∧
    (∀ stamp ∈ (empty.run ops).stamps, ∃ seq, (empty.run ops).seq? stamp = some seq) ∧
    (∀ before after, ops = before ++ after → ∀ seq stamp,
      (empty.run before).stamp seq = .ok stamp → (empty.run ops).stamp seq = .ok stamp) ∧
    (∀ rows t', (empty.run ops).restore rows = (.ok (), t') ↔ (empty.run ops).TakesIn rows t') ∧
    (∀ rows t' e, (empty.run ops).restore rows = (.error e, t') ↔
      ∃ before row after, rows = before ++ row :: after ∧
        (empty.run ops).restore before = (.ok (), t') ∧ (∀ t'', ¬t'.Takes row t'') ∧
        t'.restoreRow row = .error e) ∧
    ∀ before after, ops = before ++ after →
      ((empty.run ops).restore (empty.run before).rows).2 = empty.run ops ∧
      ((empty.run before).size < UInt32.size →
        ((empty.run ops).restore (empty.run before).rows).1 = .ok ()) := by
  have hgrows (before after : List Operation) (hops : ops = before ++ after) :
      (empty.run before).GrowsTo (empty.run ops) := by
    rw [hops, run_append]
    exact growsTo_run (fun h => hreset (hops ▸ List.mem_append_right before h)) _
  have hcoherent := coherent_empty.run ops
  refine ⟨fun stamp hc => ?_, hcoherent.seq?_eq,
    fun stamp seq hs => ⟨hcoherent.places hs, hcoherent.stamp_eq hs⟩,
    fun stamp => hcoherent.exists_seq?,
    fun before after hops seq stamp => (hgrows before after hops).stamp_eq,
    fun rows t' => restore_eq_ok_iff, fun rows t' e => ?_, fun before after hops => ?_⟩
  · obtain ⟨seq, t', hi⟩ := (empty.run ops).exists_intern hc
    refine ⟨seq, t', hi, places_of_intern hcoherent hi, stamp_of_intern hcoherent hi, ?_⟩
    obtain ⟨-, ⟨-, ht'⟩ | ⟨-, hseq, ht'⟩⟩ := intern_eq_ok hi
    · exact .inl ht'
    · exact .inr ⟨ht', hseq⟩
  · simp only [restore_eq_error_iff, restore_eq_ok_iff]
    constructor
    · rintro ⟨before, row, after, hrows, hbefore, hstops⟩
      exact ⟨before, row, after, hrows, hbefore, not_takes_of_restoreRow hstops, hstops⟩
    · rintro ⟨before, row, after, hrows, hbefore, -, hstops⟩
      exact ⟨before, row, after, hrows, hbefore, hstops⟩
  · obtain ⟨hsame, hread⟩ := (hgrows before after hops).restore_rows
    exact ⟨hsame, fun hsize => by rw [hread hsize]⟩

/-- A record whose first row repeats the run above and whose second one continues it. The
    third one leaves a gap. -/
def gapped : List Record.StampRow :=
  [⟨⟨2⟩, foundingStamp ⟨7⟩⟩, ⟨⟨4⟩, foundingStamp ⟨8⟩⟩, ⟨⟨6⟩, foundingStamp ⟨9⟩⟩]

theorem run_appends_on_agreeing :
    .reset ∉ agreeing ∧ (foundingStamp ⟨8⟩).isUncommitted = false ∧
      (∃ t', (empty.run agreeing).intern (foundingStamp ⟨8⟩) = .ok (⟨4⟩, t') ∧
        t'.stamp ⟨4⟩ = .ok (foundingStamp ⟨8⟩)) ∧
      (empty.run agreeing).seq? (foundingStamp ⟨7⟩) = some ⟨2⟩ ∧
      (empty.run agreeing).stamp ⟨2⟩ = .ok (foundingStamp ⟨7⟩) ∧
      (empty.run (agreeing.take 1)).stamp ⟨1⟩ = .ok (foundingStamp ⟨5⟩) ∧
      (empty.run agreeing).stamp ⟨1⟩ = .ok (foundingStamp ⟨5⟩) ∧
      (∃ e, (empty.run agreeing).restore gapped =
        (.error e, (empty.run agreeing).push (foundingStamp ⟨8⟩))) ∧
      (empty.run agreeing).restore (empty.run (agreeing.take 2)).rows =
        (.ok (), empty.run agreeing) := by
  have hreset : .reset ∉ agreeing := by simp [agreeing]
  obtain ⟨hintern, -, hlookup, -, hstays, -, hstops, hsame⟩ := run_appends hreset
  have hinterned : (empty.run agreeing).intern (foundingStamp ⟨8⟩) =
      .ok (⟨4⟩, (empty.run agreeing).push (foundingStamp ⟨8⟩)) := rfl
  obtain ⟨seq, t', hi, -, hstamp, -⟩ := hintern (foundingStamp ⟨8⟩) rfl
  obtain ⟨rfl, rfl⟩ := Prod.mk.inj (Except.ok.inj (hinterned.symm.trans hi))
  have hlooked : (empty.run agreeing).seq? (foundingStamp ⟨7⟩) = some ⟨2⟩ := rfl
  obtain ⟨hunchanged, hread⟩ := hsame (agreeing.take 2) (agreeing.drop 2) rfl
  have hrefused := (hstops gapped ((empty.run agreeing).push (foundingStamp ⟨8⟩)) _).2
    ⟨gapped.take 2, ⟨⟨6⟩, foundingStamp ⟨9⟩⟩, [], rfl, rfl, not_takes_of_restoreRow rfl, rfl⟩
  exact ⟨hreset, rfl, ⟨_, hinterned, hstamp (by decide)⟩, hlooked,
    (hlookup _ _ hlooked).2 (by decide), rfl,
    hstays (agreeing.take 1) (agreeing.drop 1) rfl _ _ rfl, ⟨_, hrefused⟩,
    Prod.ext (hread (by decide)) hunchanged⟩

/-! ## Beyond the words -/

/-- A stamp that comes in is what its number stands for just as long as the words suffice. -/
theorem stamp_push_iff (hnew : stamp ∉ t.stamps) :
    (t.push stamp).stamp (seqOfPlace t.size) = .ok stamp ↔ t.size + 1 < UInt32.size := by
  refine ⟨fun hs => ?_, fun hsize => stamp_seqOfPlace hsize List.getElem?_concat_length⟩
  by_contra hsize
  obtain ⟨hzero, hplace⟩ := stamp_eq_ok hs
  have hval : (seqOfPlace t.size).val.toNat = (t.size + 1) % UInt32.size := UInt32.toNat_ofNat'
  have hbelow : (t.size + 1) % UInt32.size - 1 < t.stamps.length := by
    have hlt : (t.size + 1) % UInt32.size < UInt32.size := Nat.mod_lt _ (by decide)
    have hone : 1 < UInt32.size := by decide
    rw [← size]
    omega
  -- the number is that of a place before, where another stamp stands
  rw [hval, stamps_push, List.getElem?_append_left hbelow] at hplace
  exact hnew (List.mem_of_getElem? hplace)

/-- The stamp of an active version at so many milliseconds. -/
def stampAt (millis : Nat) : Stamp :=
  foundingStamp ⟨Int64.ofNat millis⟩

/-- The stamps at the first milliseconds. -/
def stampsBefore (millis : Nat) : List Stamp :=
  (List.range millis).map stampAt

theorem stampsBefore_succ (millis : Nat) :
    stampsBefore (millis + 1) = stampsBefore millis ++ [stampAt millis] := by
  rw [stampsBefore, List.range_succ, List.map_append]
  rfl

theorem toInt_time_stampAt {millis : Nat} (h : millis < 2 ^ 63) :
    (stampAt millis).time.millis.toInt = millis :=
  Int64.toInt_ofNat_of_lt h

theorem stampAt_inj {m n : Nat} (hm : m < 2 ^ 63) (hn : n < 2 ^ 63)
    (h : stampAt m = stampAt n) : m = n := by
  have htime := congrArg (fun stamp : Stamp => stamp.time.millis.toInt) h
  rw [toInt_time_stampAt hm, toInt_time_stampAt hn] at htime
  exact Int.ofNat_inj.1 htime

theorem isUncommitted_stampAt {millis : Nat} (h : millis + 1 < 2 ^ 63) :
    (stampAt millis).isUncommitted = false := by
  refine decide_eq_false fun huncommitted => ?_
  have htime := congrArg (fun time : Timestamp => time.millis.toInt) huncommitted
  rw [toInt_time_stampAt (Nat.lt_of_succ_lt h)] at htime
  have hmax : Timestamp.uncommitted.millis.toInt = 2 ^ 63 - 1 := by decide
  omega

theorem stampAt_not_mem {millis : Nat} (h : millis < 2 ^ 63) :
    stampAt millis ∉ stampsBefore millis := by
  intro hmem
  obtain ⟨m, hm, heq⟩ := List.mem_map.1 hmem
  rw [List.mem_range] at hm
  exact absurd (stampAt_inj (Nat.lt_trans hm h) h heq) (Nat.ne_of_lt hm)

theorem size_stampsBefore (millis : Nat) : (ofStamps (stampsBefore millis)).size = millis := by
  rw [size, stamps_ofStamps, stampsBefore, List.length_map, List.length_range]

/-- The next one of these stamps is interned behind the others. -/
theorem intern_stampAt {millis : Nat} (h : millis + 1 < 2 ^ 63) :
    (ofStamps (stampsBefore millis)).intern (stampAt millis) =
      .ok (seqOfPlace millis, ofStamps (stampsBefore (millis + 1))) := by
  have hnone : (ofStamps (stampsBefore millis)).seq? (stampAt millis) = none := by
    rw [(coherent_ofStamps _).seq?_eq_none_iff, stamps_ofStamps]
    exact stampAt_not_mem (Nat.lt_of_succ_lt h)
  rw [stampsBefore_succ, ofStamps_concat]
  simp [intern, isUncommitted_stampAt h, hnone, size_stampsBefore]

/-- Its number stands for it just as long as the words suffice. -/
theorem stamp_stampAt_iff {millis : Nat} (h : millis < 2 ^ 63) :
    (ofStamps (stampsBefore (millis + 1))).stamp (seqOfPlace millis) = .ok (stampAt millis) ↔
      millis + 1 < UInt32.size := by
  have hnew : stampAt millis ∉ (ofStamps (stampsBefore millis)).stamps := by
    rw [stamps_ofStamps]
    exact stampAt_not_mem h
  have hpush := stamp_push_iff hnew
  rwa [size_stampsBefore, ← ofStamps_concat, ← stampsBefore_succ] at hpush

/-- These stamps are interned one behind the other. -/
theorem run_interns {millis : Nat} (h : millis < 2 ^ 63) :
    empty.run ((stampsBefore millis).map .intern) = ofStamps (stampsBefore millis) := by
  induction millis with
  | zero => rfl
  | succ millis ih =>
    have hlast (t : StampTable) : t.run ([stampAt millis].map .intern) =
      t.after (.intern (stampAt millis)) := rfl
    rw [stampsBefore_succ, List.map_append, run_append, ih (Nat.lt_of_succ_lt h), hlast,
      ← stampsBefore_succ, after, intern_stampAt h]

/-- The last of as many different stamps as there are words gets a number that stands for
    none. -/
theorem interned_stamp_is_lost :
    let ops : List Operation := (stampsBefore (UInt32.size - 1)).map .intern
    let last := stampAt (UInt32.size - 1)
    .reset ∉ ops ∧ last.isUncommitted = false ∧
      ∃ t', (empty.run ops).intern last = .ok (⟨0⟩, t') ∧ t'.seq? last = some ⟨0⟩ ∧
        t'.stamp ⟨0⟩ = .error (.unknownStampSeq ⟨0⟩) := by
  intro ops last
  have hfits : UInt32.size - 1 + 1 < 2 ^ 63 := by decide
  have hlast : last.isUncommitted = false := isUncommitted_stampAt hfits
  have hrun : empty.run ops = ofStamps (stampsBefore (UInt32.size - 1)) := run_interns (by omega)
  have hzero : seqOfPlace (UInt32.size - 1) = ⟨0⟩ := rfl
  refine ⟨fun hmem => ?_, hlast, ofStamps (stampsBefore (UInt32.size - 1 + 1)), ?_, ?_, rfl⟩
  · obtain ⟨stamp, -, hop⟩ := List.mem_map.1 hmem
    cases hop
  · rw [hrun, intern_stampAt hfits, hzero]
  · rw [stampsBefore_succ, ofStamps_concat, seq?_push, if_pos rfl, size_stampsBefore, hzero]

end Bitemporal.StampTable
