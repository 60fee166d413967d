/-!
# Repetitions in a list

* `distinct` keeps of each element its first occurrence;
* `firstRepeated?` finds the first element that stood in the list before, and
  finds none exactly if there is no repetition.
-/

namespace Bitemporal

variable {α : Type} [DecidableEq α]

/-- The elements of a list where they first occur, without those in `before`,
    after those in `before`, which are in reverse. -/
def distinctFrom (before : List α) : List α → List α
  | [] => before.reverse
  | a :: rest => if a ∈ before then distinctFrom before rest else distinctFrom (a :: before) rest

/-- The elements of a list where they first occur. -/
def distinct (l : List α) : List α :=
  distinctFrom [] l

/-- The first element of a list that stands in it before, or in `before`. -/
def firstRepeatedFrom? (before : List α) : List α → Option α
  | [] => none
  | a :: rest => if a ∈ before then some a else firstRepeatedFrom? (a :: before) rest

/-- The first element of a list that stands in it before. -/
def firstRepeated? (l : List α) : Option α :=
  firstRepeatedFrom? [] l

theorem mem_distinctFrom {before l : List α} {x : α} :
    x ∈ distinctFrom before l ↔ x ∈ before ∨ x ∈ l := by
  induction l generalizing before with
  | nil => simp [distinctFrom]
  | cons a rest ih =>
    unfold distinctFrom
    split
    · next h =>
      rw [ih, List.mem_cons]
      constructor
      · rintro (hx | hx) <;> simp [hx]
      · rintro (hx | rfl | hx) <;> simp [*]
    · rw [ih]
      simp only [List.mem_cons, or_assoc, or_left_comm]

@[simp] theorem mem_distinct {l : List α} {x : α} : x ∈ distinct l ↔ x ∈ l := by
  simp [distinct, mem_distinctFrom]

theorem nodup_distinctFrom {before l : List α} (h : before.Nodup) :
    (distinctFrom before l).Nodup := by
  induction l generalizing before with
  | nil => exact (List.reverse_perm before).nodup_iff.2 h
  | cons a rest ih =>
    unfold distinctFrom
    split
    · exact ih h
    · next ha => exact ih (List.nodup_cons.2 ⟨ha, h⟩)

theorem nodup_distinct (l : List α) : (distinct l).Nodup :=
  nodup_distinctFrom List.nodup_nil

theorem firstRepeatedFrom?_eq_none_iff {before l : List α} :
    firstRepeatedFrom? before l = none ↔ l.Nodup ∧ ∀ a ∈ l, a ∉ before := by
  induction l generalizing before with
  | nil => simp [firstRepeatedFrom?]
  | cons a rest ih =>
    unfold firstRepeatedFrom?
    split
    · next h => simp [h]
    · next h =>
      rw [ih, List.nodup_cons]
      simp only [List.mem_cons, not_or, forall_eq_or_imp, h, not_false_eq_true, true_and]
      constructor
      · rintro ⟨nodup, outside⟩
        exact ⟨⟨fun hm => (outside a hm).1 rfl, nodup⟩, fun b hb => (outside b hb).2⟩
      · rintro ⟨⟨hm, nodup⟩, outside⟩
        exact ⟨nodup, fun b hb => ⟨fun e => hm (e ▸ hb), outside b hb⟩⟩

/-- No element is repeated exactly if all elements are different. -/
theorem firstRepeated?_eq_none_iff {l : List α} : firstRepeated? l = none ↔ l.Nodup := by
  simp [firstRepeated?, firstRepeatedFrom?_eq_none_iff]

end Bitemporal
