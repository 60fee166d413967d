import Bitemporal.Table

/-!
# More on tables

A table to which entries are only inserted holds each key once, and then its entries
are just what is found in it (`get?_eq_some_iff`).

The values of a table can be changed without a change of the keys (`Table.map`). It makes no
difference whether this is done before or after an insertion (`map_insert`).
-/

namespace Bitemporal.Table

variable {κ α : Type} [DecidableEq κ] {t : Table κ α} {k : κ} {a : α}

/-- A change of all values changes what is found. -/
theorem find?_map {β : Type} (f : α → β) (k : κ) (l : List (κ × α)) :
    find? k (l.map fun e => (e.1, f e.2)) = (find? k l).map f := by
  induction l with
  | nil => rfl
  | cons e rest ih =>
    rw [List.map_cons, find?, find?]
    split
    · rfl
    · exact ih

/-- The table with all values changed. -/
def map {β : Type} (f : α → β) (t : Table κ α) : Table κ β :=
  ⟨t.entries.map fun e => (e.1, f e.2)⟩

theorem get?_map {β : Type} (f : α → β) (t : Table κ α) (k : κ) :
    (t.map f).get? k = (t.get? k).map f :=
  find?_map f k t.entries

omit [DecidableEq κ] in
theorem keys_map {β : Type} (f : α → β) (t : Table κ α) : (t.map f).keys = t.keys := by
  simp [keys, map]

theorem map_insert {β : Type} (f : α → β) (t : Table κ α) (k : κ) (a : α) :
    (t.insert k a).map f = (t.map f).insert k (f a) := by
  have hput (l : List (κ × α)) : (put k a l).map (fun e => (e.1, f e.2)) =
      put k (f a) (l.map fun e => (e.1, f e.2)) := by
    induction l with
    | nil => rfl
    | cons e rest ih =>
      obtain ⟨k₀, a₀⟩ := e
      by_cases hk : k₀ = k
      · simp [put, hk]
      · simp [put, hk, ih]
  rw [map, insert, hput]
  rfl

/-- What is overwritten with what it holds is unchanged. -/
theorem insert_eq_self (h : t.get? k = some a) : t.insert k a = t := by
  have hput {l : List (κ × α)} (hl : find? k l = some a) : put k a l = l := by
    induction l with
    | nil => cases hl
    | cons e rest ih =>
      obtain ⟨k₀, a₀⟩ := e
      rw [find?] at hl
      by_cases hk : k₀ = k
      · rw [if_pos hk] at hl
        rw [put, if_pos hk, hk, Option.some.inj hl]
      · rw [if_neg hk] at hl
        rw [put, if_neg hk, ih hl]
  rw [insert, hput h]

/-- What is found is still found after an entry is inserted under a key that was free. -/
theorem get?_insert_of_absent {k' : κ} {a' : α} (habsent : t.get? k' = none)
    (h : t.get? k = some a) : (t.insert k' a').get? k = some a := by
  rw [get?_insert_of_ne _ _ fun heq => ?_, h]
  rw [heq, h] at habsent
  cases habsent

/-- What is found under a key that was free is what was inserted. -/
theorem eq_of_get?_insert {k' : κ} {a' : α} (hfree : t.get? k' = none)
    (h : (t.insert k a).get? k' = some a') : k = k' ∧ a = a' := by
  rw [get?_insert, hfree] at h
  split at h
  · next hk => exact ⟨hk, Option.some.inj h⟩
  · cases h

/-- What is written again under a key takes the place of what was written before. -/
theorem insert_insert (t : Table κ α) (k : κ) (a a' : α) :
    (t.insert k a).insert k a' = t.insert k a' := by
  have hput (l : List (κ × α)) : put k a' (put k a l) = put k a' l := by
    induction l with
    | nil => simp [put]
    | cons e rest ih =>
      obtain ⟨k₀, a₀⟩ := e
      by_cases hk : k₀ = k
      · simp [put, hk]
      · simp [put, hk, ih]
  rw [insert, insert, insert, hput]

theorem nodup_keys_insert (h : t.keys.Nodup) (k : κ) (a : α) : (t.insert k a).keys.Nodup := by
  rw [keys_insert]
  split
  · exact h
  · next hk =>
    refine List.nodup_append.2 ⟨h, List.pairwise_singleton _ k, fun x hx y hy => ?_⟩
    obtain rfl := List.mem_singleton.1 hy
    exact fun e => hk (e ▸ hx)

theorem find?_of_mem {l : List (κ × α)} (h : (l.map Prod.fst).Nodup) (hm : (k, a) ∈ l) :
    find? k l = some a := by
  induction l with
  | nil => exact absurd hm List.not_mem_nil
  | cons e rest ih =>
    obtain ⟨k', a'⟩ := e
    rw [List.map_cons, List.nodup_cons] at h
    rcases List.mem_cons.1 hm with heq | hm
    · obtain ⟨rfl, rfl⟩ := Prod.mk.inj heq
      rw [find?, if_pos rfl]
    · have hne : k' ≠ k := by
        rintro rfl
        exact h.1 (List.mem_map.2 ⟨_, hm, rfl⟩)
      rw [find?, if_neg hne]
      exact ih h.2 hm

/-- What is found under a key is what the entries have under it. -/
theorem get?_eq_some_iff (h : t.keys.Nodup) : t.get? k = some a ↔ (k, a) ∈ t.entries :=
  ⟨mem_entries_of_get?, find?_of_mem h⟩

end Bitemporal.Table
