import Bitemporal.Stamp

/-!
# Sets of statuses

A set of statuses is a word of four bits, one per status in the order of tags.
-/

namespace Bitemporal

/-- A set of statuses. -/
structure StatusSet where
  /-- One bit per status. -/
  bits : BitVec 4
deriving DecidableEq, Repr

namespace StatusSet

/-- No status. -/
def empty : StatusSet := ⟨0⟩

/-- Every status. -/
def all : StatusSet := ⟨0b1111⟩

/-- Only `Active`. -/
def active : StatusSet := ⟨Status.active.mask⟩

instance : Inhabited StatusSet := ⟨empty⟩

/-- Whether a status is in the set. -/
def contains (s : StatusSet) (status : Status) : Bool :=
  s.bits &&& status.mask != 0

/-- The set with one more status. -/
def insert (s : StatusSet) (status : Status) : StatusSet :=
  ⟨s.bits ||| status.mask⟩

/-- The statuses of either set. -/
def union (s t : StatusSet) : StatusSet :=
  ⟨s.bits ||| t.bits⟩

/-- Whether every status of one set is in the other. -/
def isSubset (s t : StatusSet) : Bool :=
  s.bits &&& ~~~t.bits == 0

/-- Whether there is no status. -/
def isEmpty (s : StatusSet) : Bool :=
  s.bits == 0

/-- The set of the statuses in a list. -/
def ofList (l : List Status) : StatusSet :=
  l.foldl insert empty

/-- The statuses of the set, in the order of tags. -/
def toList (s : StatusSet) : List Status :=
  Status.all.filter s.contains

/-- The text of a set: its statuses between braces. -/
def text (s : StatusSet) : String :=
  "\x7b" ++ ", ".intercalate (s.toList.map Status.name) ++ "\x7d"

instance : ToString StatusSet := ⟨text⟩

theorem contains_insert (s : StatusSet) (a b : Status) :
    (s.insert a).contains b = (decide (a = b) || s.contains b) := by
  obtain ⟨bits⟩ := s
  revert bits
  cases a <;> cases b <;> decide

theorem contains_union (s t : StatusSet) (a : Status) :
    (s.union t).contains a = (s.contains a || t.contains a) := by
  obtain ⟨b⟩ := s
  obtain ⟨c⟩ := t
  revert b c
  cases a <;> decide

/-- One set is part of another exactly if the other has all its statuses. -/
theorem isSubset_iff {s t : StatusSet} :
    s.isSubset t = true ↔ ∀ a, s.contains a = true → t.contains a = true := by
  have key : ∀ b c : BitVec 4, (⟨b⟩ : StatusSet).isSubset ⟨c⟩ = true ↔
      (∀ a ∈ Status.all, (⟨b⟩ : StatusSet).contains a = true →
        (⟨c⟩ : StatusSet).contains a = true) := by
    decide
  refine (key s.bits t.bits).trans ⟨fun h a => h a ?_, fun h a _ => h a⟩
  cases a <;> simp [Status.all]

end StatusSet

end Bitemporal
