/-!
# Finite tables

A table is a finite map, kept as the list of its entries in the order in which
their keys were first inserted. Writing under a key that is already present
replaces the value in place, so a key never appears twice and a table that is
overwritten with what it holds is unchanged.

* `get?_insert`: a lookup after an insertion sees the new value under the
  inserted key and the old table under any other;
* `keys_insert`: an insertion adds its key at the end unless it is there.
-/

namespace Bitemporal

/-- A finite map from `κ` to `α`, in order of first insertion. -/
structure Table (κ α : Type) where
  /-- The entries, oldest key first. -/
  entries : List (κ × α) := []
deriving Repr, DecidableEq, Inhabited

namespace Table

variable {κ α : Type} [DecidableEq κ]

/-- The table without entries. -/
def empty : Table κ α := ⟨[]⟩

/-- The value found under `k` in a list of entries, the first one if there are
    several. -/
def find? (k : κ) : List (κ × α) → Option α
  | [] => none
  | (k', a) :: rest => if k' = k then some a else find? k rest

/-- The value under `k`. -/
def get? (t : Table κ α) (k : κ) : Option α :=
  find? k t.entries

/-- Whether there is an entry under `k`. -/
def contains (t : Table κ α) (k : κ) : Bool :=
  (t.get? k).isSome

/-- The entries with `a` under `k`: in place of the first entry of `k`, else at
    the end. -/
def put (k : κ) (a : α) : List (κ × α) → List (κ × α)
  | [] => [(k, a)]
  | (k', a') :: rest => if k' = k then (k, a) :: rest else (k', a') :: put k a rest

/-- The table with `a` under `k`. -/
def insert (t : Table κ α) (k : κ) (a : α) : Table κ α :=
  ⟨put k a t.entries⟩

/-- The table without an entry under `k`. -/
def erase (t : Table κ α) (k : κ) : Table κ α :=
  ⟨t.entries.filter fun entry => entry.1 ≠ k⟩

/-- The keys, in order of first insertion. -/
def keys (t : Table κ α) : List κ :=
  t.entries.map Prod.fst

/-- The number of keys. -/
def size (t : Table κ α) : Nat :=
  t.entries.length

/-- Whether there is no entry. -/
def isEmpty (t : Table κ α) : Bool :=
  t.entries.isEmpty

@[simp] theorem get?_empty (k : κ) : (empty : Table κ α).get? k = none := rfl

theorem find?_put (k k' : κ) (a : α) (l : List (κ × α)) :
    find? k' (put k a l) = if k = k' then some a else find? k' l := by
  induction l with
  | nil => simp [put, find?]
  | cons e rest ih =>
    obtain ⟨k₀, a₀⟩ := e
    by_cases h : k₀ = k
    · subst h
      by_cases h' : k₀ = k' <;> simp [put, find?, h']
    · by_cases h' : k₀ = k'
      · subst h'
        simp [put, find?, h, Ne.symm h]
      · simp [put, find?, h, h', ih]

theorem get?_insert (t : Table κ α) (k k' : κ) (a : α) :
    (t.insert k a).get? k' = if k = k' then some a else t.get? k' :=
  find?_put k k' a t.entries

@[simp] theorem get?_insert_self (t : Table κ α) (k : κ) (a : α) :
    (t.insert k a).get? k = some a := by
  simp [get?_insert]

theorem get?_insert_of_ne (t : Table κ α) {k k' : κ} (a : α) (h : k ≠ k') :
    (t.insert k a).get? k' = t.get? k' := by
  simp [get?_insert, h]

theorem find?_eq_none_iff {k : κ} {l : List (κ × α)} :
    find? k l = none ↔ k ∉ l.map Prod.fst := by
  induction l with
  | nil => simp [find?]
  | cons e rest ih =>
    obtain ⟨k', a⟩ := e
    by_cases h : k' = k
    · simp [find?, h]
    · simp [find?, h, ih, Ne.symm h]

theorem contains_iff_mem_keys {t : Table κ α} {k : κ} : t.contains k = true ↔ k ∈ t.keys := by
  rw [contains, get?, keys, ← Decidable.not_iff_not, ← find?_eq_none_iff]
  cases find? k t.entries <;> simp

theorem find?_mem {k : κ} {a : α} {l : List (κ × α)} (h : find? k l = some a) : (k, a) ∈ l := by
  induction l with
  | nil => simp [find?] at h
  | cons e rest ih =>
    obtain ⟨k', a'⟩ := e
    by_cases hk : k' = k
    · simp_all [find?]
    · simp only [find?, hk, if_false] at h
      exact List.mem_cons_of_mem _ (ih h)

/-- What a table holds under a key is one of its entries. -/
theorem mem_entries_of_get? {t : Table κ α} {k : κ} {a : α} (h : t.get? k = some a) :
    (k, a) ∈ t.entries :=
  find?_mem h

theorem map_fst_put (k : κ) (a : α) (l : List (κ × α)) :
    (put k a l).map Prod.fst =
      if k ∈ l.map Prod.fst then l.map Prod.fst else l.map Prod.fst ++ [k] := by
  induction l with
  | nil => simp [put]
  | cons e rest ih =>
    obtain ⟨k', a'⟩ := e
    by_cases h : k' = k
    · simp [put, h]
    · simp only [put, h, if_false, List.map_cons, ih, List.mem_cons, Ne.symm h, false_or]
      split <;> simp

theorem keys_insert (t : Table κ α) (k : κ) (a : α) :
    (t.insert k a).keys = if k ∈ t.keys then t.keys else t.keys ++ [k] :=
  map_fst_put k a t.entries

end Table

end Bitemporal
