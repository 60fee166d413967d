import Bitemporal.Nid
import Bitemporal.Table

/-!
# Walks in a graph of components

A `Digraph` gives every component a list of successors; all but finitely many
have none. Two walks are defined on it.

* `Digraph.settle` goes along the successors of a node before it settles the node
  itself, and fails with the node at which the trail of unsettled nodes closes.
* `Digraph.reach` collects every node that is reached from given ones.

Both walks end because each node with successors is entered at most once: the
nodes that have successors and are not yet on the trail, or not yet found, become
fewer, or else the list of nodes still to be looked at becomes shorter.
-/

namespace Bitemporal

/-- A graph on component numbers. -/
structure Digraph where
  /-- The successors of each node that has some. -/
  successors : Table Nid (List Nid)
deriving DecidableEq, Repr

namespace Digraph

/-- The successors of a node. -/
def next (g : Digraph) (n : Nid) : List Nid :=
  (g.successors.get? n).getD []

/-- The nodes for which successors are declared. -/
def sources (g : Digraph) : List Nid :=
  g.successors.keys

/-- The number of sources that are not in a list. -/
def countOutside (g : Digraph) (l : List Nid) : Nat :=
  (g.sources.filter fun n => n ∉ l).length

theorem next_of_not_mem {g : Digraph} {n : Nid} (h : n ∉ g.sources) : g.next n = [] := by
  have : g.successors.get? n = none := Table.find?_eq_none_iff.2 h
  simp [next, this]

theorem length_filter_cons_le (n : Nid) (l sources : List Nid) :
    (sources.filter fun m => m ∉ n :: l).length ≤ (sources.filter fun m => m ∉ l).length := by
  induction sources with
  | nil => simp
  | cons m rest ih =>
    by_cases h : m ∈ l
    · have h' : m ∈ n :: l := List.mem_cons_of_mem _ h
      simpa [List.filter_cons, h, h'] using ih
    · by_cases h' : m ∈ n :: l
      · simp only [List.filter_cons, h', h, not_true_eq_false, not_false_eq_true, decide_true,
          decide_false, if_true, List.length_cons]
        exact Nat.le_succ_of_le ih
      · simp only [List.filter_cons, h', h, not_false_eq_true, decide_true, if_true,
          List.length_cons]
        exact Nat.succ_le_succ ih

theorem length_filter_cons_lt {n : Nid} {l sources : List Nid} (hn : n ∈ sources) (hl : n ∉ l) :
    (sources.filter fun m => m ∉ n :: l).length < (sources.filter fun m => m ∉ l).length := by
  induction sources with
  | nil => simp at hn
  | cons m rest ih =>
    by_cases hm : m = n
    · subst hm
      have h' : m ∈ m :: l := List.mem_cons_self
      simp only [List.filter_cons, h', hl, not_true_eq_false, not_false_eq_true, decide_true,
        decide_false, if_true, List.length_cons]
      exact Nat.lt_succ_of_le (length_filter_cons_le m l rest)
    · have hn' : n ∈ rest := by
        rcases List.mem_cons.1 hn with e | h
        · exact absurd e.symm hm
        · exact h
      have key := ih hn'
      by_cases h : m ∈ l
      · have h' : m ∈ n :: l := List.mem_cons_of_mem _ h
        simpa [List.filter_cons, h, h'] using key
      · have h' : m ∉ n :: l := by simp [hm, h]
        simp only [List.filter_cons, h', h, not_false_eq_true, decide_true, if_true,
          List.length_cons]
        exact Nat.succ_lt_succ key

/-- A node that is not in the list either is one source less outside it, or has
    no successors. -/
theorem countOutside_cons (g : Digraph) {n : Nid} {l : List Nid} (h : n ∉ l) :
    g.countOutside (n :: l) < g.countOutside l ∨
      g.countOutside (n :: l) = g.countOutside l ∧ g.next n = [] := by
  by_cases hn : n ∈ g.sources
  · exact .inl (length_filter_cons_lt hn h)
  · refine .inr ⟨?_, next_of_not_mem hn⟩
    unfold countOutside
    congr 1
    refine List.filter_congr fun m hm => ?_
    have : m ≠ n := fun e => hn (e ▸ hm)
    simp [this]

/-- Settles the nodes of a list and all that is reached from them, one node after
    the nodes that it leads to. The answer is the list of settled nodes, the last
    one first; or the node at which the walk came back to its own `trail`. -/
def settle (g : Digraph) (trail settled : List Nid) : List Nid → Except Nid (List Nid)
  | [] => .ok settled
  | n :: rest =>
    if n ∈ settled then g.settle trail settled rest
    else if n ∈ trail then .error n
    else
      match g.settle (n :: trail) settled (g.next n) with
      | .error m => .error m
      | .ok settled => g.settle trail (n :: settled) rest
termination_by todo => (g.countOutside trail, todo.length)
decreasing_by
  · exact .right _ (by simp)
  · rename_i h
    rcases g.countOutside_cons h with lt | ⟨eq, none⟩
    · exact .left _ _ lt
    · rw [eq, none]
      exact .right _ (by simp)
  · exact .right _ (by simp)

/-- The nodes of `found`, those of a list, and all that is reached from them
    without passing through `found`. -/
def reach (g : Digraph) (found : List Nid) : List Nid → List Nid
  | [] => found
  | n :: rest =>
    if n ∈ found then g.reach found rest
    else g.reach (n :: found) (g.next n ++ rest)
termination_by todo => (g.countOutside found, todo.length)
decreasing_by
  · exact .right _ (by simp)
  · rename_i h
    rcases g.countOutside_cons h with lt | ⟨eq, none⟩
    · exact .left _ _ lt
    · rw [eq, none]
      exact .right _ (by simp)

/-- Whether the walk from some nodes never comes back to its own trail; if it
    does, the node where that happens. -/
def checkAcyclic (g : Digraph) (nodes : List Nid) : Except Nid Unit :=
  (g.settle [] [] nodes).map fun _ => ()

/-- The nodes that are reached from a node in one or more steps. -/
def above (g : Digraph) (n : Nid) : NidSet :=
  .ofList (g.reach [] (g.next n))

end Digraph

end Bitemporal
