import Bitemporal.Digraph
import Mathlib.Logic.Relation

/-!
# What the walks find

The walks of a graph are compared with its paths: a node is *reached* from another
by zero or more edges, and lies *above* it if it is reached by one or more.

* `mem_above_iff`: the collected nodes are those that lie above;
* `not_above_self_of_checkAcyclic`: where the walk never comes back to its own
  trail, no node that is reached lies above itself;
* `above_self_of_checkAcyclic`: where it does come back, it is at a node that is
  reached and lies above itself.

The second one rests on the order in which nodes are settled: a settled node
leads only to nodes that were settled before it (`Ordered`). The third one rests
on the trail: whatever the walk is still to look at lies above all of it.
-/

namespace Bitemporal.Digraph

variable (g : Digraph)

/-- There is an edge from `m` to `n`. -/
def Edge (m n : Nid) : Prop := n ∈ g.next m

/-- `n` is reached from `m`. -/
abbrev Reaches : Nid → Nid → Prop := Relation.ReflTransGen g.Edge

/-- `n` is reached from `m` in one or more steps. -/
abbrev LiesAbove : Nid → Nid → Prop := Relation.TransGen g.Edge

variable {g}

/-! ## Collecting -/

theorem reach_sound {found todo : List Nid} {x : Nid} (hx : x ∈ g.reach found todo) :
    x ∈ found ∨ ∃ n ∈ todo, g.Reaches n x := by
  fun_induction reach g found todo with
  | case1 found => exact .inl hx
  | case2 found n rest h ih =>
    rcases ih hx with h | ⟨m, hm, hr⟩
    · exact .inl h
    · exact .inr ⟨m, List.mem_cons_of_mem _ hm, hr⟩
  | case3 found n rest h ih =>
    rcases ih hx with h | ⟨m, hm, hr⟩
    · rcases List.mem_cons.1 h with rfl | h
      · exact .inr ⟨x, List.mem_cons_self, .refl⟩
      · exact .inl h
    · rcases List.mem_append.1 hm with hm | hm
      · exact .inr ⟨n, List.mem_cons_self, .head hm hr⟩
      · exact .inr ⟨m, List.mem_cons_of_mem _ hm, hr⟩

theorem subset_reach {found todo : List Nid} {x : Nid} (hx : x ∈ found ∨ x ∈ todo) :
    x ∈ g.reach found todo := by
  fun_induction reach g found todo with
  | case1 found => simpa using hx
  | case2 found n rest h ih =>
    refine ih ?_
    rcases hx with hx | hx
    · exact .inl hx
    · rcases List.mem_cons.1 hx with rfl | hx
      · exact .inl h
      · exact .inr hx
  | case3 found n rest h ih =>
    refine ih ?_
    rcases hx with hx | hx
    · exact .inl (List.mem_cons_of_mem _ hx)
    · rcases List.mem_cons.1 hx with rfl | hx
      · exact .inl List.mem_cons_self
      · exact .inr (List.mem_append_right _ hx)

/-- If the edges of the nodes found so far lead to what is found or still to be
    looked at, the edges of the nodes found in the end stay among them. -/
theorem reach_closed {found todo : List Nid}
    (hf : ∀ m ∈ found, ∀ n, g.Edge m n → n ∈ found ∨ n ∈ todo) {m n : Nid}
    (hm : m ∈ g.reach found todo) (hmn : g.Edge m n) : n ∈ g.reach found todo := by
  fun_induction reach g found todo with
  | case1 found => simpa using hf m hm n hmn
  | case2 found k rest h ih =>
    refine ih (fun a ha b hab => ?_) hm
    rcases hf a ha b hab with hb | hb
    · exact .inl hb
    · rcases List.mem_cons.1 hb with rfl | hb
      · exact .inl h
      · exact .inr hb
  | case3 found k rest h ih =>
    refine ih (fun a ha b hab => ?_) hm
    rcases List.mem_cons.1 ha with rfl | ha
    · exact .inr (List.mem_append_left _ hab)
    · rcases hf a ha b hab with hb | hb
      · exact .inl (List.mem_cons_of_mem _ hb)
      · rcases List.mem_cons.1 hb with rfl | hb
        · exact .inl List.mem_cons_self
        · exact .inr (List.mem_append_right _ hb)

theorem mem_reach_of_reaches {todo : List Nid} {n x : Nid} (hn : n ∈ todo) (hx : g.Reaches n x) :
    x ∈ g.reach [] todo := by
  induction hx with
  | refl => exact subset_reach (.inr hn)
  | tail _ hmn ih => exact reach_closed (by simp) ih hmn

/-- The nodes collected above a node are those that lie above it. -/
theorem mem_above_iff {n x : Nid} : x ∈ g.above n ↔ g.LiesAbove n x := by
  rw [above, NidSet.mem_ofList, LiesAbove, Relation.TransGen.head'_iff]
  constructor
  · intro hx
    rcases reach_sound hx with h | ⟨m, hm, hr⟩
    · exact absurd h (by simp)
    · exact ⟨m, hm, hr⟩
  · rintro ⟨m, hm, hr⟩
    exact mem_reach_of_reaches hm hr

instance (n x : Nid) : Decidable (g.LiesAbove n x) :=
  decidable_of_iff (x ∈ g.above n) mem_above_iff

/-! ## Settling -/

variable (g) in
/-- Every node of a list leads only to nodes after it, and stands in it once. -/
def Ordered : List Nid → Prop
  | [] => True
  | n :: rest => n ∉ rest ∧ (∀ m, g.Edge n m → m ∈ rest) ∧ Ordered rest

theorem Ordered.mem_of_edge {l : List Nid} (h : g.Ordered l) {m n : Nid} (hm : m ∈ l)
    (hmn : g.Edge m n) : n ∈ l := by
  induction l with
  | nil => simp at hm
  | cons a rest ih =>
    rcases List.mem_cons.1 hm with rfl | hm
    · exact List.mem_cons_of_mem _ (h.2.1 n hmn)
    · exact List.mem_cons_of_mem _ (ih h.2.2 hm)

theorem Ordered.mem_of_reaches {l : List Nid} (h : g.Ordered l) {m n : Nid} (hm : m ∈ l)
    (hr : g.Reaches m n) : n ∈ l := by
  induction hr with
  | refl => exact hm
  | tail _ hab ih => exact h.mem_of_edge ih hab

theorem Ordered.not_above_self {l : List Nid} (h : g.Ordered l) {n : Nid} (hn : n ∈ l) :
    ¬g.LiesAbove n n := by
  induction l with
  | nil => simp at hn
  | cons a rest ih =>
    obtain ⟨ha, hnext, hrest⟩ := h
    rcases List.mem_cons.1 hn with rfl | hn
    · -- what is above the first node lies in the rest, where the node itself is not
      intro hc
      obtain ⟨m, hm, hr⟩ := Relation.TransGen.head'_iff.1 hc
      exact ha (hrest.mem_of_reaches (hnext m hm) hr)
    · exact ih hrest hn

/-- What a walk adds to the settled nodes avoids its trail, covers what it was to
    look at, and keeps the order. -/
theorem settle_ok {trail settled todo r : List Nid} (h : g.settle trail settled todo = .ok r)
    (ho : g.Ordered settled) :
    (∃ new, r = new ++ settled ∧ ∀ n ∈ new, n ∉ trail) ∧ (∀ n ∈ todo, n ∈ r) ∧ g.Ordered r := by
  fun_induction settle g trail settled todo generalizing r with
  | case1 trail settled =>
    obtain rfl : settled = r := by simpa using h
    exact ⟨⟨[], by simp⟩, by simp, ho⟩
  | case2 trail settled n rest hn ih =>
    obtain ⟨⟨new, rfl, hnew⟩, hrest, hr⟩ := ih h ho
    refine ⟨⟨new, rfl, hnew⟩, fun m hm => ?_, hr⟩
    rcases List.mem_cons.1 hm with rfl | hm
    · exact List.mem_append_right _ hn
    · exact hrest m hm
  | case3 => simp at h
  | case4 => simp at h
  | case5 trail settled n rest hn ht settled' heq ih₁ ih₂ =>
    -- the successors of `n` are settled first, on a trail that `n` stands on
    obtain ⟨⟨new₁, rfl, hnew₁⟩, hnext, ho₁⟩ := ih₁ heq ho
    have hn' : n ∉ new₁ ++ settled := by
      rw [List.mem_append, not_or]
      exact ⟨fun hm => hnew₁ n hm List.mem_cons_self, hn⟩
    obtain ⟨⟨new₂, rfl, hnew₂⟩, hrest, hr⟩ := ih₂ h ⟨hn', hnext, ho₁⟩
    refine ⟨⟨new₂ ++ n :: new₁, by simp, fun m hm => ?_⟩, fun m hm => ?_, hr⟩
    · rcases List.mem_append.1 hm with hm | hm
      · exact hnew₂ m hm
      · rcases List.mem_cons.1 hm with rfl | hm
        · exact ht
        · exact fun h => hnew₁ m hm (List.mem_cons_of_mem _ h)
    · rcases List.mem_cons.1 hm with rfl | hm
      · simp
      · exact hrest m hm

/-- Where the walk never comes back to its own trail, no node that is reached
    lies above itself. -/
theorem not_above_self_of_checkAcyclic {nodes : List Nid} (h : g.checkAcyclic nodes = .ok ())
    {m n : Nid} (hm : m ∈ nodes) (hr : g.Reaches m n) : ¬g.LiesAbove n n := by
  rw [checkAcyclic] at h
  cases hs : g.settle [] [] nodes with
  | error e => simp [hs, Except.map] at h
  | ok r =>
    obtain ⟨-, hmem, ho⟩ := settle_ok hs (by trivial)
    exact ho.not_above_self (ho.mem_of_reaches (hmem m hm) hr)

/-- A walk whose trail leads to all that it was to look at comes back to its trail at a
    node above itself, which it was to look at or reached from there. -/
theorem settle_error {trail settled todo : List Nid} {n : Nid}
    (h : g.settle trail settled todo = .error n)
    (ht : ∀ t ∈ trail, ∀ m ∈ todo, g.LiesAbove t m) :
    (∃ m ∈ todo, g.Reaches m n) ∧ g.LiesAbove n n := by
  fun_induction settle g trail settled todo with
  | case1 => cases h
  | case2 trail settled m rest hm ih =>
    obtain ⟨⟨k, hk, hr⟩, hn⟩ := ih h fun t hmem k hk => ht t hmem k (List.mem_cons_of_mem _ hk)
    exact ⟨⟨k, List.mem_cons_of_mem _ hk, hr⟩, hn⟩
  | case3 trail settled m rest hm hmem =>
    obtain rfl := Except.error.inj h
    exact ⟨⟨m, List.mem_cons_self, .refl⟩, ht m hmem m List.mem_cons_self⟩
  | case4 trail settled m rest hm hmem k heq ih =>
    obtain rfl := Except.error.inj h
    -- the trail leads to `m`, and with `m` on it also to the successors of `m`
    obtain ⟨⟨k', hk', hr⟩, hn⟩ := ih heq fun t ht' k' hk' => by
      rcases List.mem_cons.1 ht' with rfl | ht'
      · exact .single hk'
      · exact (ht t ht' m List.mem_cons_self).tail hk'
    exact ⟨⟨m, List.mem_cons_self, .head hk' hr⟩, hn⟩
  | case5 trail settled m rest hm hmem settled' heq _ ih =>
    obtain ⟨⟨k, hk, hr⟩, hn⟩ := ih h fun t hmem k hk => ht t hmem k (List.mem_cons_of_mem _ hk)
    exact ⟨⟨k, List.mem_cons_of_mem _ hk, hr⟩, hn⟩

/-- Where the walk comes back to its own trail, a node that is reached lies above
    itself. -/
theorem above_self_of_checkAcyclic {nodes : List Nid} {n : Nid}
    (h : g.checkAcyclic nodes = .error n) :
    (∃ m ∈ nodes, g.Reaches m n) ∧ g.LiesAbove n n := by
  rw [checkAcyclic] at h
  cases hs : g.settle [] [] nodes with
  | ok r => simp [hs, Except.map] at h
  | error e =>
    rw [hs] at h
    obtain rfl := Except.error.inj h
    exact settle_error hs (by simp)

end Bitemporal.Digraph
