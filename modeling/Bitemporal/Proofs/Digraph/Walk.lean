import Bitemporal.Digraph
import Bitemporal.Lineage
import Mathlib

/-!
# The walk with a stack

The walk that settles nodes can keep its trail on a stack instead of returning to it
(`Digraph.walk`). A frame of the stack is a node together with the number of its successors
that were followed. The node on top is settled once there is no further successor to follow;
until then its next successor is passed over if it is settled, refused if it is on the stack,
and put on top otherwise.

What a frame does until it is taken off is what the recursion does with the successors that
are left to it (`walk_cons`), so both walks settle the same nodes in the same order, and are
refused at the same node (`visitAll_eq_settle`). The checks of a lineage are walks of this
kind (`Lineage.checkFrom_eq_visit`, `Lineage.check_eq_visitAll`).
-/

namespace Bitemporal

namespace Digraph

variable {g : Digraph} {n m : Nid} {i : Nat} {l l' : List Nid}

/-! ## The walk -/

theorem countOutside_le (h : ∀ n, n ∈ l → n ∈ l') : g.countOutside l' ≤ g.countOutside l := by
  rw [countOutside, countOutside]
  refine List.Sublist.length_le (List.monotone_filter_right _ fun n hn => ?_)
  have hn' : n ∉ l' := of_decide_eq_true hn
  exact decide_eq_true fun hmem => hn' (h n hmem)

/-- The nodes of a list but one. -/
def without (l : List Nid) (n : Nid) : List Nid :=
  l.filter (· ≠ n)

theorem without_cons_self (h : n ∉ l) : without (n :: l) n = l := by
  rw [without, List.filter_cons_of_neg (by simp), List.filter_eq_self]
  exact fun m hm => decide_eq_true fun hmn => h (hmn ▸ hm)

/-- What a frame has left to do: to follow successors, and to be taken off. -/
def load (g : Digraph) (frame : Nid × Nat) : Nat :=
  2 * ((g.next frame.1).length - frame.2) + 1

theorem load_succ (h : (g.next n)[i]? = some m) : g.load (n, i + 1) + 2 = g.load (n, i) := by
  have hlt : i < (g.next n).length := (List.getElem?_eq_some_iff.1 h).1
  simp only [load]
  omega

/-- Goes on with a stack of nodes, of each of which so many successors were followed. The
    answer is the list of settled nodes, the last one first, and the list of nodes that are
    still on the stack; or the node at which the walk came back to its stack. -/
def walk (g : Digraph) (done onStack : List Nid) :
    List (Nid × Nat) → Except Nid (List Nid × List Nid)
  | [] => .ok (done, onStack)
  | (n, i) :: stack =>
    match _h : (g.next n)[i]? with
    | none => g.walk (n :: done) (without onStack n) stack
    | some m =>
      if m ∈ done then g.walk done onStack ((n, i + 1) :: stack)
      else if m ∈ onStack then .error m
      else g.walk done (m :: onStack) ((m, 0) :: (n, i + 1) :: stack)
termination_by stack => (g.countOutside (done ++ onStack), (stack.map g.load).sum)
decreasing_by
  · have hle : g.countOutside (n :: done ++ without onStack n) ≤
        g.countOutside (done ++ onStack) := by
      refine countOutside_le fun m hm => ?_
      by_cases hmn : m = n <;> simp_all [without]
    rcases Nat.lt_or_eq_of_le hle with lt | eq
    · exact .left _ _ lt
    · rw [eq]
      exact .right _ (by simp [load])
  · refine .right _ ?_
    have hload := load_succ _h
    simp only [List.map_cons, List.sum_cons]
    omega
  · rename_i hdone hon
    have hnew : m ∉ done ++ onStack := by simp [hdone, hon]
    have heq : g.countOutside (done ++ m :: onStack) = g.countOutside (m :: (done ++ onStack)) :=
      Nat.le_antisymm (countOutside_le (by simp [or_left_comm]))
        (countOutside_le (by simp [or_left_comm]))
    rw [heq]
    rcases g.countOutside_cons hnew with lt | ⟨eq, none⟩
    · exact .left _ _ lt
    · -- a node without successors is taken off again
      rw [eq]
      refine .right _ ?_
      have hload := load_succ _h
      have hnew : g.load (m, 0) = 1 := by simp [load, none]
      simp only [List.map_cons, List.sum_cons]
      omega

/-- Settles a node and all that is reached from it, unless it is settled. -/
def visit (g : Digraph) (done onStack : List Nid) (start : Nid) :
    Except Nid (List Nid × List Nid) :=
  if start ∈ done then .ok (done, onStack) else g.walk done (start :: onStack) [(start, 0)]

/-- Visits the nodes of a list, one after the other. -/
def visitAll (g : Digraph) (done onStack : List Nid) :
    List Nid → Except Nid (List Nid × List Nid)
  | [] => .ok (done, onStack)
  | n :: rest =>
    match g.visit done onStack n with
    | .error m => .error m
    | .ok (done, onStack) => g.visitAll done onStack rest

theorem walk_of_none {done onStack : List Nid} {stack : List (Nid × Nat)}
    (h : (g.next n)[i]? = none) : g.walk done onStack ((n, i) :: stack) =
      g.walk (n :: done) (without onStack n) stack := by
  rw [walk]
  split
  · rfl
  · next hm =>
    rw [h] at hm
    cases hm

theorem walk_of_some {done onStack : List Nid} {stack : List (Nid × Nat)}
    (h : (g.next n)[i]? = some m) : g.walk done onStack ((n, i) :: stack) =
      if m ∈ done then g.walk done onStack ((n, i + 1) :: stack)
      else if m ∈ onStack then .error m
      else g.walk done (m :: onStack) ((m, 0) :: (n, i + 1) :: stack) := by
  rw [walk]
  split
  · next hnone =>
    rw [h] at hnone
    cases hnone
  · next k hk =>
    obtain rfl : m = k := Option.some.inj (h.symm.trans hk)
    rfl

/-! ## Both walks -/

theorem next_of_drop {rest : List Nid} (h : (g.next n).drop i = m :: rest) :
    (g.next n)[i]? = some m ∧ (g.next n).drop (i + 1) = rest := by
  have hget : (g.next n)[i]? = some m := by
    rw [← Nat.add_zero i, ← List.getElem?_drop, h]
    rfl
  rw [← List.drop_drop, h]
  exact ⟨hget, rfl⟩

/-- A frame on top of a stack settles the successors that are left to it, and is taken off. -/
theorem walk_cons (done onStack : List Nid) (stack : List (Nid × Nat)) (n : Nid) (i : Nat) :
    g.walk done onStack ((n, i) :: stack) =
      match g.settle onStack done ((g.next n).drop i) with
      | .error m => .error m
      | .ok done' => g.walk (n :: done') (without onStack n) stack := by
  generalize htodo : (g.next n).drop i = todo
  fun_induction settle g onStack done todo generalizing n i stack with
  | case1 onStack done =>
    exact walk_of_none (List.getElem?_eq_none_iff.2 (List.drop_eq_nil_iff.1 htodo))
  | case2 onStack done m rest hm ih =>
    obtain ⟨hnext, hrest⟩ := next_of_drop htodo
    rw [walk_of_some hnext, if_pos hm]
    exact ih stack n (i + 1) hrest
  | case3 onStack done m rest hm hon =>
    rw [walk_of_some (next_of_drop htodo).1, if_neg hm, if_pos hon]
  | case4 onStack done m rest hm hon k heq ih =>
    rw [walk_of_some (next_of_drop htodo).1, if_neg hm, if_neg hon, ih _ m 0 List.drop_zero, heq]
  | case5 onStack done m rest hm hon settled heq ih₁ ih₂ =>
    obtain ⟨hnext, hrest⟩ := next_of_drop htodo
    -- the frame of `m` comes and goes, and leaves the stack as it was
    rw [walk_of_some hnext, if_neg hm, if_neg hon, ih₁ _ m 0 List.drop_zero, heq]
    dsimp only
    rw [without_cons_self hon]
    exact ih₂ stack n (i + 1) hrest

/-- A visit settles what is reached from a node, and then the node; its stack is empty in the
    end. -/
theorem visit_of_not_mem {done : List Nid} (h : n ∉ done) :
    g.visit done [] n = (g.settle [n] done (g.next n)).map fun done' => (n :: done', []) := by
  rw [visit, if_neg h, walk_cons, List.drop_zero]
  cases g.settle [n] done (g.next n) with
  | error m => rfl
  | ok done' =>
    dsimp only
    rw [without_cons_self List.not_mem_nil, walk]
    rfl

/-- Both walks settle the same nodes in the same order, and are refused at the same node. -/
theorem visitAll_eq_settle (done nodes : List Nid) :
    g.visitAll done [] nodes = (g.settle [] done nodes).map fun done' => (done', []) := by
  induction nodes generalizing done with
  | nil =>
    rw [settle]
    rfl
  | cons n rest ih =>
    rw [visitAll, settle]
    by_cases h : n ∈ done
    · rw [visit, if_pos h, if_pos h]
      exact ih done
    · rw [visit_of_not_mem h, if_neg h, if_neg List.not_mem_nil]
      cases g.settle [n] done (g.next n) with
      | error m => rfl
      | ok done' => exact ih (n :: done')

end Digraph

namespace Lineage

/-- What a walk over origins has to say: nothing, or that there is a cycle. -/
def cycleFound {α : Type} : Except Nid α → Except Error Unit
  | .ok _ => .ok ()
  | .error path => .error (.invalidCoordinate (.originCycle path))

/-- A check of paths visits them with a stack, one after the other. -/
theorem checkPaths_eq_visitAll (l : Lineage) (paths : List Nid) :
    l.checkPaths paths = cycleFound (l.graph.visitAll [] [] paths) := by
  rw [checkPaths, Digraph.checkAcyclic, Digraph.visitAll_eq_settle]
  cases l.graph.settle [] [] paths <;> rfl

/-- The check of a path is one visit, -/
theorem checkFrom_eq_visit (l : Lineage) (path : Nid) :
    l.checkFrom path = cycleFound (l.graph.visit [] [] path) := by
  rw [checkFrom, checkPaths_eq_visitAll, Digraph.visitAll]
  cases l.graph.visit [] [] path <;> rfl

/-- and the check of a lineage visits its paths in ascending order. -/
theorem check_eq_visitAll (l : Lineage) :
    l.check = cycleFound (l.graph.visitAll [] [] (NidSet.ofList l.origins.keys).toList) :=
  checkPaths_eq_visitAll l _

end Lineage

end Bitemporal
