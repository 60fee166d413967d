import Bitemporal.Digraph
import Bitemporal.Taxonomy

/-!
# Building a closure

The edges of a taxonomy are followed down from some roots, level by level, and
kept from child to parent. The ancestors of each concept that was reached are
then found in that graph.

The walk ends: a concept that is reached for the first time is a component of the
store that was not reached before (`Taxonomy.mem_components_of_mem_children`).
-/

namespace Bitemporal.Taxonomy

variable (t : Taxonomy) (s : Store)

/-- Children are components. -/
theorem mem_components_of_mem_children {t : Taxonomy} {s : Store} {parent child : Nid}
    {below : NidSet} (h : t.children s parent = .ok below) (hc : child ∈ below) :
    child ∈ s.components := by
  unfold children at h
  cases h₁ : s.history parent with
  | error e => simp [h₁, bind, Except.bind] at h
  | ok _ =>
    cases h₂ : (s.semanticsAbout t.assemblage parent).toList.mapM s.history with
    | error e => simp [h₁, h₂, bind, Except.bind] at h
    | ok edges =>
      simp only [h₁, h₂, bind, Except.bind, pure, Except.pure, Except.ok.injEq] at h
      subst h
      have hs := (List.mem_filter.1 (NidSet.mem_ofList.1 hc)).2
      unfold sees at hs
      cases hg : s.histories.get? child with
      | none => simp [hg] at hs
      | some h' => exact Table.contains_iff_mem_keys.1 (by simp [Table.contains, hg])

/-- The edges found so far, from child to parents, with one more. -/
def addParent (parent : Nid) (edges : Table Nid NidSet) (child : Nid) : Table Nid NidSet :=
  edges.insert child (((edges.get? child).getD ∅).insert parent)

/-- The members of a set that are not in a list. -/
def fresh (below : NidSet) (reached : List Nid) : List Nid :=
  below.toList.filter fun n => n ∉ reached

/-- The components that are not in a list. -/
def unreached (s : Store) (reached : List Nid) : Nat :=
  (s.components.filter fun n => n ∉ reached).length

theorem length_filter_append_le (l r r' : List Nid) :
    (l.filter fun n => n ∉ r ++ r').length ≤ (l.filter fun n => n ∉ r).length := by
  induction l with
  | nil => simp
  | cons n rest ih =>
    simp only [List.filter_cons, List.mem_append, not_or, Bool.decide_and, decide_not] at ih ⊢
    by_cases h : n ∈ r <;> by_cases h' : n ∈ r' <;> simp [h, h'] <;> omega

theorem length_filter_append_lt {l r r' : List Nid} {n : Nid} (hl : n ∈ l) (hr : n ∉ r)
    (hr' : n ∈ r') :
    (l.filter fun n => n ∉ r ++ r').length < (l.filter fun n => n ∉ r).length := by
  induction l with
  | nil => simp at hl
  | cons m rest ih =>
    have le := length_filter_append_le rest r r'
    simp only [List.filter_cons, List.mem_append, not_or, Bool.decide_and, decide_not] at ih le ⊢
    rcases List.mem_cons.1 hl with rfl | hm
    · simp [hr, hr']; omega
    · have := ih hm
      by_cases h : m ∈ r <;> by_cases h' : m ∈ r' <;> simp [h, h'] <;> omega

/-- Fresh components become fewer, or there are none among the children. -/
theorem unreached_fresh {t : Taxonomy} {s : Store} {parent : Nid} {below : NidSet}
    (h : t.children s parent = .ok below) (reached : List Nid) :
    unreached s (reached ++ fresh below reached) < unreached s reached ∨
      fresh below reached = [] := by
  cases hf : fresh below reached with
  | nil => exact .inr rfl
  | cons n rest =>
    have hn : n ∈ fresh below reached := by simp [hf]
    have ⟨hb, hr⟩ := List.mem_filter.1 hn
    refine .inl (hf ▸ length_filter_append_lt (n := n) ?_ (by simpa using hr) hn)
    exact mem_components_of_mem_children h hb

/-- Follows the edges from the components of a list and from all that they lead
    to, in the order in which they were reached. The answer is the edges, from
    child to parents, and the concepts reached. -/
def explore (edges : Table Nid NidSet) (reached : List Nid) :
    List Nid → Except Error (Table Nid NidSet × List Nid)
  | [] => .ok (edges, reached)
  | parent :: rest =>
    match _h : t.children s parent with
    | .error e => .error e
    | .ok below =>
      explore (below.toList.foldl (addParent parent) edges) (reached ++ fresh below reached)
        (rest ++ fresh below reached)
termination_by todo => (unreached s reached, todo.length)
decreasing_by
  rcases unreached_fresh _h reached with lt | none
  · exact .left _ _ lt
  · rw [none, List.append_nil, List.append_nil]
    exact .right _ (by simp)

/-- The graph that leads from each concept to its parents. -/
def parentGraph (edges : Table Nid NidSet) : Digraph :=
  ⟨⟨edges.entries.map fun (child, parents) => (child, parents.toList)⟩⟩

/-- The closure over the concepts that are reached from some roots. -/
def closureFrom (roots : List Nid) : Except Error Closure := do
  let (edges, reached) ← t.explore s .empty (distinct roots) roots
  -- roots have ancestors only if the walk came back to them
  let graph := parentGraph edges
  return { assemblage := t.assemblage
           ancestors := ⟨reached.map fun concept => (concept, graph.above concept)⟩ }

end Bitemporal.Taxonomy
