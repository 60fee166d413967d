import Bitemporal.Proofs.Digraph
import Bitemporal.Proofs.Taxonomy.Parents
import Bitemporal.Taxonomy.Closure
import Mathlib

/-!
# Closures and reachability

A closure is built by two walks. The first one goes down from the roots and lists for each
child the parents that led to it (`Taxonomy.explore`). It keeps an account of how far it has
come (`Exploring`): what is listed are edges from concepts that were reached, and of a
concept that was reached all edges are listed unless it still waits to be looked at. So in
the end just the edges from the concepts reached are listed (`Exploring.listed_iff`). The
second walk goes up along them, from each concept that was reached, and so it finds the
concepts that were reached and that lead there (`transGen_listed_iff`).

The first walk asks for the children of components only, once the roots are components,
because children are components. So it is refused for a root that is none, and for nothing
else (`explore_eq_error`, `exists_explore`).
-/

namespace Bitemporal

/-- What a table holds that was computed from its keys. -/
theorem Table.find?_graph {κ α : Type} [DecidableEq κ] (f : κ → α) (k : κ) (keys : List κ) :
    find? k (keys.map fun k => (k, f k)) = if k ∈ keys then some (f k) else none := by
  induction keys with
  | nil => rfl
  | cons k' rest ih =>
    rw [List.map_cons, find?, ih]
    by_cases hk : k' = k
    · subst hk
      simp
    · simp [hk, Ne.symm hk]

namespace Taxonomy

variable {t : Taxonomy} {s : Store} {roots reached todo rest : List Nid}
  {edges : Table Nid NidSet} {parent child n : Nid} {below : NidSet} {e : Error}

/-- The question for the children of a component finds another one. -/
def LeadsDown (t : Taxonomy) (s : Store) (parent child : Nid) : Prop :=
  ∃ below, t.children s parent = .ok below ∧ child ∈ below

/-- A concept is one of the roots, or reached from one of them from children to children. -/
def ReachedFrom (t : Taxonomy) (s : Store) (roots : List Nid) (n : Nid) : Prop :=
  ∃ root ∈ roots, Relation.ReflTransGen (t.LeadsDown s) root n

theorem leadsDown_iff (hbelow : t.children s parent = .ok below) :
    t.LeadsDown s parent child ↔ child ∈ below := by
  constructor
  · rintro ⟨below', hbelow', hchild⟩
    rwa [Except.ok.inj (hbelow.symm.trans hbelow')]
  · exact fun hchild => ⟨below, hbelow, hchild⟩

theorem ReachedFrom.step (h : t.ReachedFrom s roots parent) (hd : t.LeadsDown s parent child) :
    t.ReachedFrom s roots child := by
  obtain ⟨root, hroot, hr⟩ := h
  exact ⟨root, hroot, hr.tail hd⟩

/-! ## Lists of parents -/

/-- A parent is listed for a child. -/
def Listed (edges : Table Nid NidSet) (child parent : Nid) : Prop :=
  ∃ parents, edges.get? child = some parents ∧ parent ∈ parents

theorem listed_addParent {other : Nid} : Listed (addParent parent edges other) child n ↔
    child = other ∧ n = parent ∨ Listed edges child n := by
  rw [Listed, addParent, Table.get?_insert]
  split
  · next heq =>
    subst heq
    cases hget : edges.get? other <;> simp [Listed, hget]
  · next hne => simp [Listed, Ne.symm hne]

theorem listed_addParents {children : List Nid} :
    Listed (children.foldl (addParent parent) edges) child n ↔
      child ∈ children ∧ n = parent ∨ Listed edges child n := by
  induction children generalizing edges with
  | nil => simp
  | cons other rest ih =>
    rw [List.foldl_cons, ih, listed_addParent, List.mem_cons]
    tauto

theorem edge_parentGraph : (parentGraph edges).Edge child parent ↔ Listed edges child parent := by
  rw [Digraph.Edge, Digraph.next, parentGraph, Table.get?, Table.find?_map, Listed, Table.get?]
  cases Table.find? child edges.entries <;> simp

/-! ## The walk down -/

/-- How far a walk from some roots has come. -/
structure Exploring (t : Taxonomy) (s : Store) (roots : List Nid) (edges : Table Nid NidSet)
    (reached todo : List Nid) : Prop where
  nodup : reached.Nodup
  starts : ∀ root ∈ roots, root ∈ reached
  /-- Nothing was reached but from the roots. -/
  sound : ∀ n ∈ reached, t.ReachedFrom s roots n
  /-- What waits was reached. -/
  waiting : ∀ n ∈ todo, n ∈ reached
  /-- What is listed are edges from what was reached. -/
  listed : ∀ child parent, Listed edges child parent →
    parent ∈ reached ∧ t.LeadsDown s parent child
  /-- All edges are listed from what was reached and does not wait. -/
  complete : ∀ parent ∈ reached, parent ∈ todo ∨
    ∀ child, t.LeadsDown s parent child → child ∈ reached ∧ Listed edges child parent

theorem exploring_roots (t : Taxonomy) (s : Store) (roots : List Nid) :
    t.Exploring s roots .empty (distinct roots) roots where
  nodup := nodup_distinct roots
  starts _ hroot := mem_distinct.2 hroot
  sound n hn := ⟨n, mem_distinct.1 hn, .refl⟩
  waiting _ hn := mem_distinct.2 hn
  listed _ _ := by
    rintro ⟨_, h, -⟩
    simp at h
  complete _ hparent := .inl (mem_distinct.1 hparent)

theorem mem_fresh_iff : n ∈ fresh below reached ↔ n ∈ below ∧ n ∉ reached := by
  simp [fresh]

/-- The edges to the children of the first concept that waits are listed, and those of the
    children that were not reached before wait. -/
theorem Exploring.step (h : t.Exploring s roots edges reached (parent :: rest))
    (hbelow : t.children s parent = .ok below) :
    t.Exploring s roots (below.toList.foldl (addParent parent) edges)
      (reached ++ fresh below reached) (rest ++ fresh below reached) where
  nodup := by
    refine List.nodup_append.2 ⟨h.nodup, ?_, fun a ha b hb => ?_⟩
    · refine List.Nodup.filter _ (below.ascending.imp ?_)
      rintro n _ hlt rfl
      exact Nid.lt_irrefl n hlt
    · rintro rfl
      exact (mem_fresh_iff.1 hb).2 ha
  starts root hroot := List.mem_append_left _ (h.starts root hroot)
  sound n hn := by
    rcases List.mem_append.1 hn with hn | hn
    · exact h.sound n hn
    · have hparent := h.sound parent (h.waiting parent List.mem_cons_self)
      exact hparent.step ((leadsDown_iff hbelow).2 (mem_fresh_iff.1 hn).1)
  waiting n hn := by
    rcases List.mem_append.1 hn with hn | hn
    · exact List.mem_append_left _ (h.waiting n (List.mem_cons_of_mem _ hn))
    · exact List.mem_append_right _ hn
  listed child n hlisted := by
    rcases listed_addParents.1 hlisted with ⟨hchild, rfl⟩ | hlisted
    · exact ⟨List.mem_append_left _ (h.waiting _ List.mem_cons_self),
        (leadsDown_iff hbelow).2 hchild⟩
    · obtain ⟨hn, hd⟩ := h.listed child n hlisted
      exact ⟨List.mem_append_left _ hn, hd⟩
  complete n hn := by
    have hnow : ∀ child, t.LeadsDown s parent child → child ∈ reached ++ fresh below reached ∧
        Listed (below.toList.foldl (addParent parent) edges) child parent := fun child hd => by
      have hchild := (leadsDown_iff hbelow).1 hd
      refine ⟨List.mem_append.2 ?_, listed_addParents.2 (.inl ⟨hchild, rfl⟩)⟩
      by_cases hold : child ∈ reached
      · exact .inl hold
      · exact .inr (mem_fresh_iff.2 ⟨hchild, hold⟩)
    rcases List.mem_append.1 hn with hn | hn
    · rcases h.complete n hn with hwaits | hall
      · rcases List.mem_cons.1 hwaits with rfl | hwaits
        · exact .inr hnow
        · exact .inl (List.mem_append_left _ hwaits)
      · refine .inr fun child hd => ?_
        obtain ⟨hchild, hlisted⟩ := hall child hd
        exact ⟨List.mem_append_left _ hchild, listed_addParents.2 (.inr hlisted)⟩
    · exact .inl (List.mem_append_right _ hn)

/-- In the end nothing waits. -/
theorem Exploring.run {found : Table Nid NidSet × List Nid}
    (h : t.Exploring s roots edges reached todo)
    (hfound : t.explore s edges reached todo = .ok found) :
    t.Exploring s roots found.1 found.2 [] := by
  fun_induction explore t s edges reached todo with
  | case1 edges reached =>
    obtain rfl := Except.ok.inj hfound
    exact h
  | case2 => cases hfound
  | case3 edges reached parent rest below hbelow ih => exact ih (h.step hbelow) hfound

/-! ## What was reached in the end -/

section

variable (h : t.Exploring s roots edges reached [])
include h

/-- Just the edges from what was reached are listed. -/
theorem Exploring.listed_iff :
    Listed edges child parent ↔ parent ∈ reached ∧ t.LeadsDown s parent child := by
  refine ⟨h.listed child parent, ?_⟩
  rintro ⟨hparent, hd⟩
  exact (((h.complete parent hparent).resolve_left List.not_mem_nil) child hd).2

theorem Exploring.mem_of_leadsDown (hparent : parent ∈ reached) (hd : t.LeadsDown s parent child) :
    child ∈ reached :=
  (((h.complete parent hparent).resolve_left List.not_mem_nil) child hd).1

/-- What is reached from the roots was reached, and nothing else. -/
theorem Exploring.mem_reached_iff : n ∈ reached ↔ t.ReachedFrom s roots n := by
  refine ⟨h.sound n, ?_⟩
  rintro ⟨root, hroot, hr⟩
  induction hr with
  | refl => exact h.starts root hroot
  | tail _ hd ih => exact h.mem_of_leadsDown ih hd

/-- Going up along what is listed leads to what was reached and leads down again. -/
theorem Exploring.transGen_listed_iff {d a : Nid} :
    Relation.TransGen (Listed edges) d a ↔
      a ∈ reached ∧ Relation.TransGen (t.LeadsDown s) a d := by
  constructor
  · intro hup
    induction hup with
    | single hlisted =>
      obtain ⟨ha, hd⟩ := h.listed_iff.1 hlisted
      exact ⟨ha, .single hd⟩
    | tail _ hlisted ih =>
      obtain ⟨ha, hd⟩ := h.listed_iff.1 hlisted
      exact ⟨ha, .head hd ih.2⟩
  · rintro ⟨ha, hdown⟩
    -- going down, what is met was reached, so the edge that led there is listed
    have hboth : d ∈ reached ∧ Relation.TransGen (Listed edges) d a := by
      induction hdown with
      | single hd => exact ⟨h.mem_of_leadsDown ha hd, .single (h.listed_iff.2 ⟨ha, hd⟩)⟩
      | tail _ hd ih =>
        exact ⟨h.mem_of_leadsDown ih.1 hd, .head (h.listed_iff.2 ⟨ih.1, hd⟩) ih.2⟩
    exact hboth.2

theorem Exploring.mem_above_iff {d a : Nid} : a ∈ (parentGraph edges).above d ↔
    t.ReachedFrom s roots a ∧ Relation.TransGen (t.LeadsDown s) a d := by
  have hsame : (parentGraph edges).Edge = Listed edges := by
    funext child parent
    exact propext edge_parentGraph
  rw [Digraph.mem_above_iff, Digraph.LiesAbove, hsame, h.transGen_listed_iff, h.mem_reached_iff]

/-- What lies below something that was reached was reached. -/
theorem Exploring.mem_of_transGen {d a : Nid} (ha : t.ReachedFrom s roots a)
    (hd : Relation.TransGen (t.LeadsDown s) a d) : d ∈ reached := by
  obtain ⟨root, hroot, hr⟩ := ha
  exact h.mem_reached_iff.2 ⟨root, hroot, hr.trans hd.to_reflTransGen⟩

theorem Exploring.encard_reachedFrom : {n | t.ReachedFrom s roots n}.encard = reached.length := by
  have hset : {n | t.ReachedFrom s roots n} = reached.toFinset := by
    ext n
    simp [← h.mem_reached_iff]
  rw [hset, Set.encard_coe_eq_coe_finsetCard, List.toFinset_card_of_nodup h.nodup]

end

/-! ## Refusals -/

theorem contains_of_children (hbelow : t.children s parent = .ok below) (hchild : child ∈ below) :
    s.contains child = true := by
  obtain ⟨h, hh⟩ := Store.mem_components_iff.1 (mem_components_of_mem_children hbelow hchild)
  rw [Store.contains, Table.contains, Store.history_eq_ok hh]
  rfl

theorem children_of_not_contains (hnone : s.contains parent = false) :
    t.children s parent = .error (.unknownIdentifier parent) := by
  rw [children, Store.history, Store.contains_eq_false_iff.1 hnone]
  rfl

/-- The walk is refused for something that waits and is no component. -/
theorem explore_eq_error (hs : s.Indexed) (h : t.explore s edges reached todo = .error e) :
    ∃ n ∈ todo, s.contains n = false ∧ e = .unknownIdentifier n := by
  fun_induction explore t s edges reached todo with
  | case1 => cases h
  | case2 edges reached parent rest e' herror =>
    obtain rfl := Except.error.inj h
    refine ⟨parent, List.mem_cons_self, ?_⟩
    cases hc : s.contains parent with
    | false =>
      rw [children_of_not_contains hc] at herror
      exact ⟨rfl, (Except.error.inj herror).symm⟩
    | true =>
      obtain ⟨history, hhistory⟩ := Store.exists_history hc
      obtain ⟨below, hbelow, -⟩ := exists_children (t := t) hs hhistory
      rw [hbelow] at herror
      cases herror
  | case3 edges reached parent rest below hbelow ih =>
    obtain ⟨n, hn, hnone, he⟩ := ih h
    rcases List.mem_append.1 hn with hn | hn
    · exact ⟨n, List.mem_cons_of_mem _ hn, hnone, he⟩
    · -- children are components
      rw [contains_of_children hbelow (mem_fresh_iff.1 hn).1] at hnone
      cases hnone

/-- A walk that is not refused has asked for the children of all that waited. -/
theorem contains_of_explore {found : Table Nid NidSet × List Nid}
    (h : t.explore s edges reached todo = .ok found) : ∀ n ∈ todo, s.contains n = true := by
  fun_induction explore t s edges reached todo with
  | case1 => simp
  | case2 => cases h
  | case3 edges reached parent rest below hbelow ih =>
    intro n hn
    rcases List.mem_cons.1 hn with rfl | hn
    · cases hc : s.contains n with
      | true => rfl
      | false =>
        rw [children_of_not_contains hc] at hbelow
        cases hbelow
    · exact ih h n (List.mem_append_left _ hn)

/-! ## Closures -/

/-- A closure that was built holds what lies above each concept reached. -/
theorem closureFrom_eq_ok {closure : Closure} (h : t.closureFrom s roots = .ok closure) :
    ∃ edges reached, t.Exploring s roots edges reached [] ∧ closure.assemblage = t.assemblage ∧
      closure.ancestors.entries =
        reached.map fun concept => (concept, (parentGraph edges).above concept) := by
  obtain ⟨⟨edges, reached⟩, hfound, hclosure⟩ := bind_eq_ok_iff.1 h
  obtain rfl := pure_eq_ok_iff.1 hclosure
  exact ⟨edges, reached, (exploring_roots t s roots).run hfound, rfl, rfl⟩

/-- The ancestors of a concept are what was reached and leads down to it. -/
theorem mem_ancestorsOf_iff {closure : Closure} (h : t.closureFrom s roots = .ok closure)
    {d a : Nid} : a ∈ closure.ancestorsOf d ↔
      t.ReachedFrom s roots a ∧ Relation.TransGen (t.LeadsDown s) a d := by
  obtain ⟨edges, reached, hx, -, hentries⟩ := closureFrom_eq_ok h
  rw [Closure.ancestorsOf, Table.get?, hentries, Table.find?_graph]
  by_cases hd : d ∈ reached
  · rw [if_pos hd, Option.getD_some, hx.mem_above_iff]
  · rw [if_neg hd, Option.getD_none]
    refine iff_of_false NidSet.not_mem_empty ?_
    rintro ⟨ha, hdown⟩
    exact hd (hx.mem_of_transGen ha hdown)

theorem exists_closureFrom_iff (hs : s.Indexed) :
    (∃ closure, t.closureFrom s roots = .ok closure) ↔ ∀ root ∈ roots, s.contains root = true := by
  constructor
  · rintro ⟨closure, h⟩
    obtain ⟨found, hfound, -⟩ := bind_eq_ok_iff.1 h
    exact contains_of_explore hfound
  · intro hroots
    cases hfound : t.explore s .empty (distinct roots) roots with
    | ok found => exact ⟨_, bind_eq_ok_iff.2 ⟨found, hfound, rfl⟩⟩
    | error e =>
      obtain ⟨n, hn, hnone, -⟩ := explore_eq_error hs hfound
      rw [hroots n hn] at hnone
      cases hnone

theorem closureFrom_eq_error (hs : s.Indexed) (h : t.closureFrom s roots = .error e) :
    ∃ root ∈ roots, s.contains root = false ∧ e = .unknownIdentifier root := by
  cases hfound : t.explore s .empty (distinct roots) roots with
  | ok found =>
    rw [closureFrom, hfound] at h
    cases h
  | error e' =>
    rw [closureFrom, hfound] at h
    obtain rfl := Except.error.inj h
    exact explore_eq_error hs hfound

/-- A closure is exact reachability. In a store that can be reached, cycles of edges or not,
    it is built just if all roots are components. Then a concept lies below another one just
    if that one is a root or was reached from one, and leads to the concept in one or more
    steps from children to children; so a concept lies below itself just if it was reached and
    lies on a cycle. The ancestors are these, in ascending order, and the size is the number
    of concepts reached from the roots. -/
theorem closureFrom_exact (hs : s.Reachable) (t : Taxonomy) (roots : List Nid) :
    ((∃ closure, t.closureFrom s roots = .ok closure) ↔
      ∀ root ∈ roots, s.contains root = true) ∧
    (∀ e, t.closureFrom s roots = .error e →
      ∃ root ∈ roots, s.contains root = false ∧ e = .unknownIdentifier root) ∧
    ∀ closure, t.closureFrom s roots = .ok closure → closure.assemblage = t.assemblage ∧
      (∀ d a, closure.isDescendantOf d a = true ↔
        t.ReachedFrom s roots a ∧ Relation.TransGen (t.LeadsDown s) a d) ∧
      (∀ d, (closure.ancestorsOf d).toList.Pairwise (· < ·) ∧
        ∀ a, a ∈ (closure.ancestorsOf d).toList ↔
          t.ReachedFrom s roots a ∧ Relation.TransGen (t.LeadsDown s) a d) ∧
      {n | t.ReachedFrom s roots n}.encard = closure.size := by
  have hi := Store.indexed_of_reachable hs
  refine ⟨exists_closureFrom_iff hi, fun e => closureFrom_eq_error hi, fun closure h => ?_⟩
  obtain ⟨edges, reached, hx, hassemblage, hentries⟩ := closureFrom_eq_ok h
  refine ⟨hassemblage, fun d a => ?_, fun d => ⟨(closure.ancestorsOf d).ascending, fun a => ?_⟩, ?_⟩
  · rw [Closure.isDescendantOf, decide_eq_true_iff, mem_ancestorsOf_iff h]
  · rw [NidSet.mem_toList, mem_ancestorsOf_iff h]
  · rw [hx.encard_reachedFrom, Closure.size, Table.size, hentries, List.length_map]

/-- The concepts 1 and 2 lead to each other, so either is its own ancestor. A root that is
    given twice counts once, and one that is not there is refused. -/
theorem closureFrom_exact_on_retargeting :
    ∃ v closure, Viewpoint.make Store.betweenCommits .empty .standard = .ok v ∧
      (ofFirst v).closureFrom (Store.empty.run retargeting) [⟨2⟩, ⟨2⟩] = .ok closure ∧
      closure.ancestorsOf ⟨1⟩ = .ofList [⟨2⟩, ⟨1⟩] ∧
      Relation.TransGen ((ofFirst v).LeadsDown (Store.empty.run retargeting)) ⟨1⟩ ⟨1⟩ ∧
      {n | (ofFirst v).ReachedFrom (Store.empty.run retargeting) [⟨2⟩, ⟨2⟩] n}.encard = 2 ∧
      (ofFirst v).closureFrom (Store.empty.run retargeting) [⟨2⟩, ⟨9⟩] =
        .error (.unknownIdentifier ⟨9⟩) ∧
      ∃ root ∈ [(⟨2⟩ : Nid), ⟨9⟩], (Store.empty.run retargeting).contains root = false := by
  have hs : (Store.empty.run retargeting).Reachable := ⟨retargeting, rfl⟩
  obtain ⟨v, hv, closure, hclosure, hbelow, habove, hsize, hrefused⟩ :
      ∃ v, Viewpoint.make Store.betweenCommits .empty .standard = .ok v ∧ ∃ closure,
        (ofFirst v).closureFrom (Store.empty.run retargeting) [⟨2⟩, ⟨2⟩] = .ok closure ∧
        closure.isDescendantOf ⟨1⟩ ⟨1⟩ = true ∧
        closure.ancestorsOf ⟨1⟩ = .ofList [⟨2⟩, ⟨1⟩] ∧ closure.size = 2 ∧
        (ofFirst v).closureFrom (Store.empty.run retargeting) [⟨2⟩, ⟨9⟩] =
          .error (.unknownIdentifier ⟨9⟩) :=
    ⟨_, by cbv, _, by cbv, by cbv, by cbv, by cbv, by cbv⟩
  obtain ⟨-, -, hexact⟩ := closureFrom_exact hs (ofFirst v) [⟨2⟩, ⟨2⟩]
  obtain ⟨-, hdescendants, -, hreached⟩ := hexact closure hclosure
  rw [hsize] at hreached
  obtain ⟨-, hnamed, -⟩ := closureFrom_exact hs (ofFirst v) [⟨2⟩, ⟨9⟩]
  obtain ⟨root, hroot, hnone, -⟩ := hnamed _ hrefused
  exact ⟨v, closure, hv, hclosure, habove, ((hdescendants _ _).1 hbelow).2, hreached, hrefused,
    root, hroot, hnone⟩

end Taxonomy

end Bitemporal
