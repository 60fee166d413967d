import Bitemporal.Proofs.Refusal
import Bitemporal.Proofs.Store.Operation
import Mathlib.Data.List.Induction

/-!
# Interned stamps stay

A table tells its stamps twice: as a list, and as the numbers under which they are looked up.
Nothing in the table keeps the two together, but whatever is done to it leaves them as pushing
the stamps one after the other does (`StampTable.Coherent`): interning, refilling from any
record, and resetting. So a stamp is looked up under the number of its last place
(`Coherent.seq?_eq`).

A table only grows at its end, and by stamps that have a time of their own
(`StampTable.GrowsTo`). So a number goes on standing for its stamp.

The numbers are 32-bit words. As long as they suffice, the number that a stamp is given
stands for it (`stamp_of_intern`), and the rows of a table restore it in an empty one
(`restore_rows`).
-/

namespace Bitemporal.StampTable

variable {t t' t'' : StampTable} {stamp : Stamp} {seq : StampSeq}

/-! ## Last places -/

/-- The last place at which a stamp stands in a list. -/
def lastPlace? (stamp : Stamp) : List Stamp → Option Nat
  | [] => none
  | s :: rest =>
    match lastPlace? stamp rest with
    | some place => some (place + 1)
    | none => if s = stamp then some 0 else none

theorem getElem?_of_lastPlace? {l : List Stamp} {place : Nat}
    (h : lastPlace? stamp l = some place) : l[place]? = some stamp := by
  induction l generalizing place with
  | nil => cases h
  | cons s rest ih =>
    rw [lastPlace?] at h
    split at h
    · next p hp =>
      obtain rfl := Option.some.inj h
      exact ih hp
    · split at h
      · next heq =>
        obtain rfl := Option.some.inj h
        rw [heq]
        rfl
      · cases h

theorem lastPlace?_eq_none_iff {l : List Stamp} : lastPlace? stamp l = none ↔ stamp ∉ l := by
  induction l with
  | nil => simp [lastPlace?]
  | cons s rest ih =>
    rw [lastPlace?, List.mem_cons, not_or]
    split
    · next h => simp [← ih, h]
    · next h => simp [← ih, h, eq_comm]

theorem lastPlace?_concat (stamp s : Stamp) (l : List Stamp) :
    lastPlace? stamp (l ++ [s]) = if s = stamp then some l.length else lastPlace? stamp l := by
  induction l with
  | nil => rfl
  | cons first rest ih =>
    rw [List.cons_append, lastPlace?, ih]
    by_cases h : s = stamp
    · simp [h]
    · simp [h, lastPlace?]

/-! ## Numbers -/

theorem stamps_push (t : StampTable) (stamp : Stamp) :
    (t.push stamp).stamps = t.stamps ++ [stamp] :=
  rfl

theorem size_push (t : StampTable) (stamp : Stamp) : (t.push stamp).size = t.size + 1 :=
  List.length_append

theorem push_ne_self (t : StampTable) (stamp : Stamp) : t.push stamp ≠ t := by
  intro h
  exact absurd ((size_push t stamp).symm.trans (congrArg size h)) (Nat.succ_ne_self _)

/-- A number is that of a place if it says so. -/
theorem eq_seqOfPlace {place : Nat} (h : seq.val.toNat = place + 1) : seq = seqOfPlace place := by
  rw [seqOfPlace, ← h, UInt32.ofNat_toNat]

/-- The number of a place, which is not zero unless the words are used up. -/
theorem val_seqOfPlace {place : Nat} (h : place + 1 < UInt32.size) :
    (seqOfPlace place).val.toNat = place + 1 :=
  UInt32.toNat_ofNat_of_lt h

theorem seqOfPlace_ne_zero {place : Nat} (h : place + 1 < UInt32.size) :
    (seqOfPlace place).val ≠ 0 := by
  intro hzero
  have hval := val_seqOfPlace h
  rw [hzero] at hval
  cases hval

theorem stamp_seqOfPlace {place : Nat} (h : place + 1 < UInt32.size)
    (hs : t.stamps[place]? = some stamp) : t.stamp (seqOfPlace place) = .ok stamp := by
  rw [StampTable.stamp, if_neg (seqOfPlace_ne_zero h), val_seqOfPlace h, Nat.add_sub_cancel, hs]

theorem stamp_eq_ok (h : t.stamp seq = .ok stamp) :
    seq.val ≠ 0 ∧ t.stamps[seq.val.toNat - 1]? = some stamp := by
  rw [StampTable.stamp] at h
  split at h
  · cases h
  · next hzero =>
    split at h
    · next held hs =>
      obtain rfl := Except.ok.inj h
      exact ⟨hzero, hs⟩
    · cases h

/-- A number is that of a place at which a stamp stands. -/
def Places (t : StampTable) (seq : StampSeq) (stamp : Stamp) : Prop :=
  ∃ place, t.stamps[place]? = some stamp ∧ seq = seqOfPlace place

theorem places_of_stamp (h : t.stamp seq = .ok stamp) : t.Places seq stamp := by
  obtain ⟨hzero, hs⟩ := stamp_eq_ok h
  refine ⟨seq.val.toNat - 1, hs, ?_⟩
  have hpos : seq.val.toNat ≠ 0 := fun e => hzero (UInt32.toNat_inj.1 e)
  rw [seqOfPlace, Nat.sub_add_cancel (Nat.pos_of_ne_zero hpos), UInt32.ofNat_toNat]

/-- As long as there are enough numbers, a number stands for the stamp at its place. -/
theorem Places.stamp_eq (hp : t.Places seq stamp) (hsize : t.size < UInt32.size) :
    t.stamp seq = .ok stamp := by
  obtain ⟨place, hs, rfl⟩ := hp
  have hlt : place < t.size := (List.getElem?_eq_some_iff.1 hs).1
  exact stamp_seqOfPlace (Nat.lt_of_le_of_lt hlt hsize) hs

/-! ## Coherence -/

/-- The table of which the stamps were pushed one after the other. -/
def ofStamps (stamps : List Stamp) : StampTable :=
  stamps.foldl push empty

theorem ofStamps_concat (stamps : List Stamp) (stamp : Stamp) :
    ofStamps (stamps ++ [stamp]) = (ofStamps stamps).push stamp := by
  rw [ofStamps, List.foldl_append]
  rfl

theorem stamps_ofStamps (stamps : List Stamp) : (ofStamps stamps).stamps = stamps := by
  induction stamps using List.reverseRecOn with
  | nil => rfl
  | append_singleton stamps stamp ih => rw [ofStamps_concat, stamps_push, ih]

/-- Both parts of a table tell the same: the numbers of the stamps are those that they get if
    they are pushed one after the other. -/
def Coherent (t : StampTable) : Prop :=
  ofStamps t.stamps = t

theorem coherent_empty : empty.Coherent := rfl

theorem coherent_ofStamps (stamps : List Stamp) : (ofStamps stamps).Coherent := by
  rw [Coherent, stamps_ofStamps]

theorem Coherent.push (h : t.Coherent) (stamp : Stamp) : (t.push stamp).Coherent := by
  rw [Coherent, stamps_push, ofStamps_concat, h]

theorem seq?_push (t : StampTable) (s stamp : Stamp) :
    (t.push s).seq? stamp = if s = stamp then some (seqOfPlace t.size) else t.seq? stamp :=
  Table.get?_insert ..

theorem seq?_push_of_ne {s : Stamp} (h : s ≠ stamp) : (t.push s).seq? stamp = t.seq? stamp := by
  rw [seq?_push, if_neg h]

/-- A stamp is looked up under the number of its last place. -/
theorem Coherent.seq?_eq (h : t.Coherent) (stamp : Stamp) :
    t.seq? stamp = (lastPlace? stamp t.stamps).map seqOfPlace := by
  suffices hpushed : ∀ stamps, (ofStamps stamps).seq? stamp =
      (lastPlace? stamp stamps).map seqOfPlace by
    rw [← hpushed, h]
  intro stamps
  induction stamps using List.reverseRecOn with
  | nil => rfl
  | append_singleton stamps s ih =>
    rw [ofStamps_concat, seq?_push, lastPlace?_concat, size, stamps_ofStamps, ih]
    split <;> rfl

theorem Coherent.seq?_eq_some_iff (h : t.Coherent) :
    t.seq? stamp = some seq ↔ ∃ place, lastPlace? stamp t.stamps = some place ∧
      seqOfPlace place = seq := by
  rw [h.seq?_eq, Option.map_eq_some_iff]

theorem Coherent.seq?_eq_none_iff (h : t.Coherent) : t.seq? stamp = none ↔ stamp ∉ t.stamps := by
  rw [h.seq?_eq, Option.map_eq_none_iff, lastPlace?_eq_none_iff]

/-- What is looked up stands at the place of its number, -/
theorem Coherent.places (h : t.Coherent) (hs : t.seq? stamp = some seq) : t.Places seq stamp := by
  obtain ⟨place, hp, rfl⟩ := h.seq?_eq_some_iff.1 hs
  exact ⟨place, getElem?_of_lastPlace? hp, rfl⟩

/-- and what stands at a place is looked up. -/
theorem Coherent.exists_seq? (h : t.Coherent) (hs : stamp ∈ t.stamps) :
    ∃ seq, t.seq? stamp = some seq := by
  refine Option.ne_none_iff_exists'.1 fun hnone => ?_
  exact h.seq?_eq_none_iff.1 hnone hs

/-! ## Growth -/

/-- All stamps of a table have times of their own. -/
def Committed (t : StampTable) : Prop :=
  ∀ stamp ∈ t.stamps, stamp.isUncommitted = false

theorem committed_empty : empty.Committed :=
  fun _ h => absurd h List.not_mem_nil

/-- A table becomes another one: stamps are added at the end. -/
structure GrowsTo (t t' : StampTable) : Prop where
  stamps : t.stamps <+: t'.stamps
  committed : t.Committed → t'.Committed
  coherent : t.Coherent → t'.Coherent

theorem GrowsTo.refl (t : StampTable) : t.GrowsTo t :=
  ⟨List.prefix_rfl, id, id⟩

theorem GrowsTo.trans (h : t.GrowsTo t') (h' : t'.GrowsTo t'') : t.GrowsTo t'' :=
  ⟨h.stamps.trans h'.stamps, fun hc => h'.committed (h.committed hc),
    fun hc => h'.coherent (h.coherent hc)⟩

theorem GrowsTo.size_le (h : t.GrowsTo t') : t.size ≤ t'.size :=
  h.stamps.length_le

/-- What a number stands for does not change. -/
theorem GrowsTo.stamp_eq (h : t.GrowsTo t') (hs : t.stamp seq = .ok stamp) :
    t'.stamp seq = .ok stamp := by
  obtain ⟨hzero, hs⟩ := stamp_eq_ok hs
  obtain ⟨later, hlater⟩ := h.stamps
  rw [StampTable.stamp, if_neg hzero, ← hlater,
    List.getElem?_append_left (List.getElem?_eq_some_iff.1 hs).1, hs]

theorem Places.grow (hp : t.Places seq stamp) (hg : t.GrowsTo t') : t'.Places seq stamp := by
  obtain ⟨place, hs, hseq⟩ := hp
  obtain ⟨later, hlater⟩ := hg.stamps
  refine ⟨place, ?_, hseq⟩
  rw [← hlater, List.getElem?_append_left (List.getElem?_eq_some_iff.1 hs).1, hs]

/-- A stamp that is interned has a time of its own. -/
theorem Committed.of_stamp (hc : t.Committed) (hs : t.stamp seq = .ok stamp) :
    stamp.isUncommitted = false :=
  hc stamp (List.mem_of_getElem? (stamp_eq_ok hs).2)

theorem growsTo_push (hc : stamp.isUncommitted = false) : t.GrowsTo (t.push stamp) :=
  ⟨List.prefix_append _ _,
    fun ht => List.forall_mem_append.2 ⟨ht, List.forall_mem_singleton.2 hc⟩,
    fun ht => ht.push stamp⟩

/-- A stamp that has a time of its own is never refused. -/
theorem exists_intern (t : StampTable) (hc : stamp.isUncommitted = false) :
    ∃ seq t', t.intern stamp = .ok (seq, t') := by
  rw [intern, hc]
  cases t.seq? stamp with
  | some seq => exact ⟨seq, t, rfl⟩
  | none => exact ⟨seqOfPlace t.size, t.push stamp, rfl⟩

theorem intern_eq_ok (h : t.intern stamp = .ok (seq, t')) :
    stamp.isUncommitted = false ∧ ((t.seq? stamp = some seq ∧ t' = t) ∨
      (t.seq? stamp = none ∧ seq = seqOfPlace t.size ∧ t' = t.push stamp)) := by
  rw [intern] at h
  split at h
  · cases h
  · next hc =>
    refine ⟨Bool.eq_false_iff.2 hc, ?_⟩
    split at h
    · next seq' hs =>
      obtain ⟨rfl, rfl⟩ := Prod.mk.inj (Except.ok.inj h)
      exact .inl ⟨hs, rfl⟩
    · next hnone =>
      obtain ⟨rfl, rfl⟩ := Prod.mk.inj (Except.ok.inj h)
      exact .inr ⟨hnone, rfl, rfl⟩

theorem growsTo_intern (h : t.intern stamp = .ok (seq, t')) : t.GrowsTo t' := by
  obtain ⟨hc, ⟨-, rfl⟩ | ⟨-, -, rfl⟩⟩ := intern_eq_ok h
  · exact .refl t'
  · exact growsTo_push hc

/-- The number that a stamp is given is that of its last place. -/
theorem places_of_intern (ht : t.Coherent) (h : t.intern stamp = .ok (seq, t')) :
    t'.Places seq stamp := by
  obtain ⟨-, ⟨hs, rfl⟩ | ⟨-, rfl, rfl⟩⟩ := intern_eq_ok h
  · exact ht.places hs
  · exact ⟨t.size, List.getElem?_concat_length, rfl⟩

/-- It stands for the stamp. -/
theorem stamp_of_intern (ht : t.Coherent) (h : t.intern stamp = .ok (seq, t'))
    (hsize : t'.size < UInt32.size) : t'.stamp seq = .ok stamp :=
  (places_of_intern ht h).stamp_eq hsize

/-- A row that is accepted repeats what the table says, or continues it. -/
theorem restoreRow_eq_ok {row : Record.StampRow} (h : t.restoreRow row = .ok t') :
    t' = t ∨ (t' = t.push row.stamp ∧ row.seq.val.toNat = t.size + 1 ∧
      row.stamp.isUncommitted = false) := by
  rw [restoreRow] at h
  split at h
  · cases h
  · next hzero =>
    have hpos : row.seq.val.toNat ≠ 0 := fun e => hzero (UInt32.toNat_inj.1 e)
    dsimp only at h
    split at h
    · split at h
      · exact .inl (Except.ok.inj h).symm
      · cases h
    · split at h
      · next hplace =>
        split at h
        · cases h
        · next hc =>
          have hseq : row.seq.val.toNat = t.size + 1 := by omega
          refine .inr ⟨?_, hseq, Bool.eq_false_iff.2 hc⟩
          rw [push, ← eq_seqOfPlace hseq]
          exact (Except.ok.inj h).symm
      · cases h

theorem growsTo_restoreRow {row : Record.StampRow} (h : t.restoreRow row = .ok t') :
    t.GrowsTo t' := by
  obtain rfl | ⟨rfl, -, hc⟩ := restoreRow_eq_ok h
  · exact .refl t'
  · exact growsTo_push hc

/-- The rows before one that is refused stay. -/
theorem growsTo_restore (t : StampTable) (rows : List Record.StampRow) :
    t.GrowsTo (t.restore rows).2 := by
  induction rows generalizing t with
  | nil => exact .refl t
  | cons row rest ih =>
    rw [restore]
    split
    · exact .refl t
    · next t' h => exact (growsTo_restoreRow h).trans (ih t')

/-- The two parts of a table stay together whatever is done to it. -/
theorem Coherent.after (ht : t.Coherent) (request : Operation) : (t.after request).Coherent := by
  cases request with
  | intern stamp =>
    rw [StampTable.after]
    split
    · next h => exact (growsTo_intern h).coherent ht
    · exact ht
  | restore rows => exact (growsTo_restore t rows).coherent ht
  | reset => exact coherent_empty

theorem growsTo_after {request : Operation} (h : request ≠ .reset) (t : StampTable) :
    t.GrowsTo (t.after request) := by
  cases request with
  | intern stamp =>
    rw [after]
    split
    · next h => exact growsTo_intern h
    · exact .refl t
  | restore rows => exact growsTo_restore t rows
  | reset => exact absurd rfl h

/-! ## Restoring -/

/-- The rows of the stamps that follow those of a table continue the table. -/
theorem restore_rows_from {before later : List Stamp}
    (hsize : before.length + later.length < UInt32.size)
    (hc : ∀ stamp ∈ later, stamp.isUncommitted = false) :
    (ofStamps before).restore ((later.zipIdx before.length).map fun (stamp, place) =>
      { seq := seqOfPlace place, stamp }) = (.ok (), ofStamps (before ++ later)) := by
  induction later generalizing before with
  | nil => simp [restore]
  | cons stamp later ih =>
    have hplace : before.length + 1 < UInt32.size := by
      rw [List.length_cons] at hsize
      omega
    have hrow : (ofStamps before).restoreRow { seq := seqOfPlace before.length, stamp } =
        .ok (ofStamps (before ++ [stamp])) := by
      have hstamp := hc stamp List.mem_cons_self
      simp [restoreRow, seqOfPlace_ne_zero hplace, val_seqOfPlace hplace, size, hstamp,
        stamps_ofStamps, ofStamps_concat, push]
    have hrest := @ih (before ++ [stamp]) (by simp at hsize ⊢; omega)
      fun s hs => hc s (List.mem_cons_of_mem _ hs)
    rw [List.length_append, List.length_singleton, List.append_assoc] at hrest
    rw [List.zipIdx_cons, List.map_cons, restore]
    simp only [hrow]
    exact hrest

/-- The rows of a table restore it, with the numbers under which the stamps are looked up. -/
theorem restore_rows (hsize : t.size < UInt32.size) (hc : t.Committed) (ht : t.Coherent) :
    empty.restore t.rows = (.ok (), t) := by
  have hrestored := @restore_rows_from [] t.stamps (by simpa [size] using hsize) hc
  rw [List.nil_append, ht] at hrestored
  exact hrestored

/-! ## Rows -/

/-- A table says what rows say: each number stands for its stamp. -/
def Holds (t : StampTable) (rows : List Record.StampRow) : Prop :=
  ∀ row ∈ rows, t.stamp row.seq = .ok row.stamp

theorem Holds.grow {rows : List Record.StampRow} (h : t.Holds rows) (hg : t.GrowsTo t') :
    t'.Holds rows :=
  fun row hrow => hg.stamp_eq (h row hrow)

theorem stamp_of_restoreRow {row : Record.StampRow} (h : t.restoreRow row = .ok t') :
    t'.stamp row.seq = .ok row.stamp := by
  rw [restoreRow] at h
  split at h
  · cases h
  · next hzero =>
    dsimp only at h
    split at h
    · next held hs =>
      split at h
      · next heq =>
        obtain rfl := Except.ok.inj h
        rw [StampTable.stamp, if_neg hzero, hs, heq]
      · cases h
    · split at h
      · next hplace =>
        split at h
        · cases h
        · obtain rfl := Except.ok.inj h
          rw [StampTable.stamp, if_neg hzero, hplace, add, size, List.getElem?_concat_length]
      · cases h

/-- The rows that a table was refilled from are what it says. -/
theorem holds_of_restore {rows : List Record.StampRow} (h : t.restore rows = (.ok (), t')) :
    t'.Holds rows := by
  induction rows generalizing t with
  | nil => exact fun _ hrow => absurd hrow List.not_mem_nil
  | cons row rest ih =>
    rw [restore] at h
    split at h
    · cases h
    · next t₁ hrow =>
      refine List.forall_mem_cons.2 ⟨?_, ih h⟩
      have hg := growsTo_restore t₁ rest
      rw [h] at hg
      exact hg.stamp_eq (stamp_of_restoreRow hrow)

/-- A table says what its own rows say, if there are enough numbers for them. -/
theorem holds_rows (hsize : t.size < UInt32.size) : t.Holds t.rows := by
  intro row hrow
  obtain ⟨⟨stamp, place⟩, hmem, rfl⟩ := List.mem_map.1 hrow
  have hs : t.stamps[place]? = some stamp := List.mem_zipIdx_iff_getElem?.1 hmem
  have hlt : place < t.size := (List.getElem?_eq_some_iff.1 hs).1
  exact stamp_seqOfPlace (Nat.lt_of_le_of_lt hlt hsize) hs

/-- What stands for a number of a row in a table that has grown stands for it wherever the
    rows are what the table says. -/
theorem Holds.stamp_of_places {u : StampTable} (hu : u.Holds t.rows) (hg : t.GrowsTo t')
    (hsize : t'.size < UInt32.size) (hp : t'.Places seq stamp)
    (hrow : ∃ row ∈ t.rows, row.seq = seq) : u.stamp seq = .ok stamp := by
  obtain ⟨row, hrow, rfl⟩ := hrow
  have hheld := hg.stamp_eq (holds_rows (Nat.lt_of_le_of_lt hg.size_le hsize) row hrow)
  obtain rfl : row.stamp = stamp := Except.ok.inj (hheld.symm.trans (hp.stamp_eq hsize))
  exact hu row hrow

theorem length_rows (t : StampTable) : t.rows.length = t.size := by
  simp [rows, size]

end Bitemporal.StampTable
