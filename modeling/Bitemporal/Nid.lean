/-!
# Component numbers

A `Nid` is the compact number under which a component is known inside one
store. Numbers are 32-bit words: counting past the largest one wraps around, as
the allocation counter does.

A `NidSet` is a finite set of numbers kept as the ascending list of its members,
so that a set has one representation and lists itself in order.

* `NidSet.mem_insert`: insertion adds exactly one member;
* `NidSet.ext_iff_mem`: sets with the same members are equal.
-/

namespace Bitemporal

/-- The number of a component within its store. -/
structure Nid where
  /-- The number itself. -/
  val : Int32
deriving DecidableEq, Repr, Inhabited

namespace Nid

/-- The number that a store hands out first. -/
def first : Nid := ⟨1⟩

/-- The number counted after this one, wrapping around after the largest. -/
def next (n : Nid) : Nid := ⟨n.val + 1⟩

/-- The number after this one, which for the largest is itself. -/
def nextSaturating (n : Nid) : Nid :=
  if n.val = Int32.maxValue then n else n.next

instance : LT Nid := ⟨fun a b => a.val < b.val⟩
instance : LE Nid := ⟨fun a b => a.val ≤ b.val⟩
instance (a b : Nid) : Decidable (a < b) := inferInstanceAs (Decidable (a.val < b.val))
instance (a b : Nid) : Decidable (a ≤ b) := inferInstanceAs (Decidable (a.val ≤ b.val))
instance : Max Nid := ⟨fun a b => if a ≤ b then b else a⟩

instance : ToString Nid := ⟨fun n => s!"nid:{n.val.toInt}"⟩

theorem lt_iff {a b : Nid} : a < b ↔ a.val.toInt < b.val.toInt := Int32.lt_iff_toInt_lt

theorem le_iff {a b : Nid} : a ≤ b ↔ a.val.toInt ≤ b.val.toInt := Int32.le_iff_toInt_le

theorem ext_toInt {a b : Nid} (h : a.val.toInt = b.val.toInt) : a = b := by
  cases a; cases b; simp_all [Int32.toInt_inj]

protected theorem lt_trans {a b c : Nid} (h : a < b) (h' : b < c) : a < c := by
  rw [lt_iff] at *; omega

protected theorem lt_irrefl (a : Nid) : ¬ a < a := by
  rw [lt_iff]; omega

protected theorem lt_of_not_lt_of_ne {a b : Nid} (h : ¬ a < b) (hne : a ≠ b) : b < a := by
  rw [lt_iff] at *
  have : a.val.toInt ≠ b.val.toInt := fun e => hne (ext_toInt e)
  omega

end Nid

/-- A finite set of component numbers. -/
structure NidSet where
  /-- The members, in ascending order. -/
  toList : List Nid
  /-- The order is strict, so no member is listed twice. -/
  ascending : toList.Pairwise (· < ·)
deriving DecidableEq, Repr

namespace NidSet

instance : EmptyCollection NidSet := ⟨⟨[], .nil⟩⟩
instance : Inhabited NidSet := ⟨∅⟩
instance : Membership Nid NidSet := ⟨fun s n => n ∈ s.toList⟩
instance (n : Nid) (s : NidSet) : Decidable (n ∈ s) := inferInstanceAs (Decidable (n ∈ s.toList))

/-- The ascending list with `n` in its place. -/
def insertAscending (n : Nid) : List Nid → List Nid
  | [] => [n]
  | m :: rest =>
    if n < m then n :: m :: rest
    else if n = m then m :: rest
    else m :: insertAscending n rest

theorem mem_insertAscending {n x : Nid} {l : List Nid} :
    x ∈ insertAscending n l ↔ x = n ∨ x ∈ l := by
  induction l with
  | nil => simp [insertAscending]
  | cons m rest ih =>
    unfold insertAscending
    split
    · simp
    · split
      · subst_vars; simp
      · simp only [List.mem_cons, ih]
        constructor <;> rintro (h | h | h) <;> simp [h]

theorem pairwise_insertAscending {n : Nid} {l : List Nid} (h : l.Pairwise (· < ·)) :
    (insertAscending n l).Pairwise (· < ·) := by
  induction l with
  | nil => simp [insertAscending]
  | cons m rest ih =>
    have hm := List.pairwise_cons.1 h
    unfold insertAscending
    split
    · next hlt =>
      refine List.pairwise_cons.2 ⟨fun x hx => ?_, h⟩
      rcases List.mem_cons.1 hx with rfl | hx
      · exact hlt
      · exact Nid.lt_trans hlt (hm.1 x hx)
    · next hlt =>
      split
      · exact h
      · next hne =>
        refine List.pairwise_cons.2 ⟨fun x hx => ?_, ih hm.2⟩
        rcases mem_insertAscending.1 hx with rfl | hx
        · exact Nid.lt_of_not_lt_of_ne hlt hne
        · exact hm.1 x hx

/-- The set with `n` added. -/
def insert (s : NidSet) (n : Nid) : NidSet :=
  ⟨insertAscending n s.toList, pairwise_insertAscending s.ascending⟩

/-- The set of the numbers in a list. -/
def ofList (l : List Nid) : NidSet :=
  l.foldl insert ∅

/-- Whether the set has no member. -/
def isEmpty (s : NidSet) : Bool :=
  s.toList.isEmpty

/-- The number of members. -/
def size (s : NidSet) : Nat :=
  s.toList.length

@[simp] theorem mem_insert {s : NidSet} {n x : Nid} : x ∈ s.insert n ↔ x = n ∨ x ∈ s :=
  mem_insertAscending

@[simp] theorem not_mem_empty {n : Nid} : ¬ n ∈ (∅ : NidSet) := by
  show ¬ n ∈ ([] : List Nid)
  simp

@[simp] theorem mem_toList {s : NidSet} {n : Nid} : n ∈ s.toList ↔ n ∈ s := Iff.rfl

theorem mem_foldl_insert {l : List Nid} {s : NidSet} {x : Nid} :
    x ∈ l.foldl insert s ↔ x ∈ l ∨ x ∈ s := by
  induction l generalizing s with
  | nil => simp
  | cons n rest ih =>
    simp only [List.foldl_cons, ih, mem_insert, List.mem_cons, or_assoc, or_left_comm]

@[simp] theorem mem_ofList {l : List Nid} {x : Nid} : x ∈ ofList l ↔ x ∈ l := by
  rw [ofList, mem_foldl_insert]
  exact or_iff_left not_mem_empty

theorem eq_of_ascending {l l' : List Nid} (h : l.Pairwise (· < ·)) (h' : l'.Pairwise (· < ·))
    (hm : ∀ x, x ∈ l ↔ x ∈ l') : l = l' := by
  induction l generalizing l' with
  | nil =>
    cases l' with
    | nil => rfl
    | cons y ys => exact absurd ((hm y).2 List.mem_cons_self) (by simp)
  | cons x xs ih =>
    cases l' with
    | nil => exact absurd ((hm x).1 List.mem_cons_self) (by simp)
    | cons y ys =>
      have hx := List.pairwise_cons.1 h
      have hy := List.pairwise_cons.1 h'
      have hxy : x = y := by
        rcases List.mem_cons.1 ((hm x).1 List.mem_cons_self) with e | hxys
        · exact e
        rcases List.mem_cons.1 ((hm y).2 List.mem_cons_self) with e | hyxs
        · exact e.symm
        exact absurd (Nid.lt_trans (hx.1 y hyxs) (hy.1 x hxys)) (Nid.lt_irrefl x)
      subst hxy
      refine congrArg (x :: ·) (ih hx.2 hy.2 fun z => ⟨fun hz => ?_, fun hz => ?_⟩)
      · rcases List.mem_cons.1 ((hm z).1 (List.mem_cons_of_mem _ hz)) with e | hz'
        · exact absurd (e ▸ hx.1 z hz) (Nid.lt_irrefl _)
        · exact hz'
      · rcases List.mem_cons.1 ((hm z).2 (List.mem_cons_of_mem _ hz)) with e | hz'
        · exact absurd (e ▸ hy.1 z hz) (Nid.lt_irrefl _)
        · exact hz'

/-- A set is determined by its members. -/
theorem ext_iff_mem {s t : NidSet} : s = t ↔ ∀ x, x ∈ s ↔ x ∈ t := by
  refine ⟨fun h x => h ▸ Iff.rfl, fun h => ?_⟩
  obtain ⟨l, hl⟩ := s
  obtain ⟨l', hl'⟩ := t
  have := eq_of_ascending hl hl' h
  subst this
  rfl

end NidSet

end Bitemporal
