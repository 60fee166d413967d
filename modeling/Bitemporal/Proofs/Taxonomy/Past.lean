import Bitemporal.Proofs.Taxonomy.Parents
import Bitemporal.Taxonomy.Closure

/-!
# The past of a taxonomy

A taxonomy asks its store anew each time, so its answers move with the store. But if the
windows of its viewpoint end before everything that has been committed since, all that
moved is out of its sight: what is there looks the same, and edges and concepts that came
since have nothing current (`Viewpoint.SeesSame`). So a scan finds the same edges and sees
the same concepts (`Taxonomy.edge_iff_of_seesSame`, `Taxonomy.seen_iff_of_seesSame`), and
the neighbours of a component are what they were, although the indices list more than
before.

The walk that builds a closure has nothing but the children to go by, so it goes the same
way again (`Taxonomy.explore_of_children`), and the closure is the same
(`Taxonomy.run_keeps_taxonomy`).
-/

namespace Bitemporal.Taxonomy

variable {t : Taxonomy} {s s' : Store} {h : History} {n parent child : Nid}

/-! ## What a scan finds -/

theorem seen_iff_of_seesSame (hsame : t.viewpoint.SeesSame s s') : t.Seen s' n ↔ t.Seen s n := by
  simp only [Seen, Store.history_eq_ok_iff]
  cases hn : s.histories.get? n with
  | none =>
    -- a component that came since is not seen
    constructor
    · rintro ⟨h', hh', hcurrent⟩
      exact absurd (hsame.added n h' hn hh') hcurrent
    · rintro ⟨h, ⟨⟩, -⟩
  | some h =>
    obtain ⟨h', hh', -, hcurrent⟩ := hsame.kept n h hn
    simp [hh', hcurrent]

theorem leads_iff_of_seesSame (hsame : t.viewpoint.SeesSame s s') :
    t.Leads s' n parent child ↔ t.Leads s n parent child := by
  simp only [Leads, Counts, Store.history_eq_ok_iff]
  cases hn : s.histories.get? n with
  | none =>
    -- an edge that came since has no version that counts
    constructor
    · rintro ⟨h', hh', -, version, ⟨hcurrent, -⟩, -⟩
      rw [hsame.added n h' hn hh'] at hcurrent
      exact absurd hcurrent List.not_mem_nil
    · rintro ⟨h, ⟨⟩, -⟩
  | some h =>
    obtain ⟨h', hh', hshape, hcurrent⟩ := hsame.kept n h hn
    simp [hh', hshape, hcurrent]

theorem edge_iff_of_seesSame (hsame : t.viewpoint.SeesSame s s') :
    t.Edge s' parent child ↔ t.Edge s parent child := by
  simp only [edge_iff_exists_leads, leads_iff_of_seesSame hsame]

/-! ## Neighbours -/

/-- What lies below a component stays what a scan finds below it. -/
theorem children_of_seesSame (hs : s.Indexed) (hs' : s'.Indexed)
    (hsame : t.viewpoint.SeesSame s s') (hparent : s.history parent = .ok h) :
    ∃ below, t.children s parent = .ok below ∧ t.children s' parent = .ok below := by
  obtain ⟨h', hh', -, -⟩ := hsame.kept parent h (Store.history_eq_ok hparent)
  obtain ⟨below, hbelow, hmem⟩ := exists_children (t := t) hs hparent
  obtain ⟨below', hbelow', hmem'⟩ :=
    exists_children (t := t) hs' (Store.history_eq_ok_iff.2 hh')
  obtain rfl : below' = below := NidSet.ext_iff_mem.2 fun child => by
    rw [hmem, hmem', edge_iff_of_seesSame hsame, seen_iff_of_seesSame hsame]
  exact ⟨below', hbelow, hbelow'⟩

theorem parents_of_seesSame (ht : t.UsesOwnIndex) (hs : s.Indexed) (hs' : s'.Indexed)
    (hsame : t.viewpoint.SeesSame s s') (hchild : s.history child = .ok h) :
    ∃ above, t.parents s child = .ok above ∧ t.parents s' child = .ok above := by
  obtain ⟨h', hh', -, -⟩ := hsame.kept child h (Store.history_eq_ok hchild)
  obtain ⟨above, habove, hmem⟩ := exists_parents_eq_scan ht hs hchild
  obtain ⟨above', habove', hmem'⟩ :=
    exists_parents_eq_scan ht hs' (Store.history_eq_ok_iff.2 hh')
  obtain rfl : above' = above := NidSet.ext_iff_mem.2 fun parent => by
    rw [hmem, hmem', edge_iff_of_seesSame hsame, seen_iff_of_seesSame hsame]
  exact ⟨above', habove, habove'⟩

/-! ## Closures -/

/-- A question for the children is answered for what is there only. -/
theorem exists_history_of_children {below : NidSet} (hbelow : t.children s parent = .ok below) :
    ∃ h, s.history parent = .ok h := by
  obtain ⟨h, hh, -⟩ := bind_eq_ok_iff.1 hbelow
  exact ⟨h, hh⟩

/-- The walk goes by the answers for the children alone. -/
theorem explore_of_children
    (hsame : ∀ {parent below}, t.children s parent = .ok below → t.children s' parent = .ok below)
    {edges : Table Nid NidSet} {reached todo : List Nid} {found : Table Nid NidSet × List Nid}
    (hfound : t.explore s edges reached todo = .ok found) :
    t.explore s' edges reached todo = .ok found := by
  fun_induction explore t s edges reached todo with
  | case1 edges reached => rwa [explore]
  | case2 edges reached parent rest e herror => cases hfound
  | case3 edges reached parent rest below hbelow ih =>
    rw [explore]
    split
    · next e herror =>
      rw [hsame hbelow] at herror
      cases herror
    · next below' hbelow' =>
      obtain rfl : below = below' := Except.ok.inj ((hsame hbelow).symm.trans hbelow')
      exact ih hfound

theorem closureFrom_of_children
    (hsame : ∀ {parent below}, t.children s parent = .ok below → t.children s' parent = .ok below)
    {roots : List Nid} {closure : Closure} (hclosure : t.closureFrom s roots = .ok closure) :
    t.closureFrom s' roots = .ok closure := by
  obtain ⟨found, hfound, hclosure⟩ := bind_eq_ok_iff.1 hclosure
  exact bind_eq_ok_iff.2 ⟨found, explore_of_children hsame hfound, hclosure⟩

/-! ## Runs -/

/-- The past of a taxonomy is frozen. If its windows all end before whatever a run without
    a reset commits, then the neighbours of every component that was there before the run
    are the same after it, and every closure that could be built can be built again and is
    the same. -/
theorem run_keeps_taxonomy {ops : List Store.Operation} (hs : s.Reachable) (ht : t.UsesOwnIndex)
    (hops : ∀ op ∈ ops, op ≠ .reset)
    (hlater : ∀ n, ∀ version ∈ s.committedSince (s.run ops) n,
      t.viewpoint.EndsBefore version.stamp.time) :
    (∀ n, s.contains n = true → ∃ below above,
      t.children s n = .ok below ∧ t.children (s.run ops) n = .ok below ∧
      t.parents s n = .ok above ∧ t.parents (s.run ops) n = .ok above) ∧
    ∀ roots closure, t.closureFrom s roots = .ok closure →
      t.closureFrom (s.run ops) roots = .ok closure := by
  have hi := Store.indexed_of_reachable hs
  have hi' := Store.indexed_of_reachable (hs.run ops)
  have hsame := Viewpoint.seesSame_of_growsTo (Store.growsTo_run hops s) hlater
  refine ⟨fun n hn => ?_, fun roots closure => closureFrom_of_children ?_⟩
  · obtain ⟨h, hh⟩ := Store.exists_history hn
    obtain ⟨below, hbelow, hbelow'⟩ := children_of_seesSame hi hi' hsame hh
    obtain ⟨above, habove, habove'⟩ := parents_of_seesSame ht hi hi' hsame hh
    exact ⟨below, above, hbelow, hbelow', habove, habove'⟩
  · intro parent below hbelow
    obtain ⟨h, hh⟩ := exists_history_of_children hbelow
    obtain ⟨below', hbefore, hafter⟩ := children_of_seesSame hi hi' hsame hh
    obtain rfl : below = below' := Except.ok.inj (hbelow.symm.trans hbefore)
    exact hafter

/-- A run after the time 15 that turns the edge from the concept 1 to the concept 2 to the
    concept 1, retires the edge from the concept 2, and adds an edge between the concepts. -/
def turning : List Store.Operation :=
  [.append ⟨3⟩ (Store.foundingStamp ⟨20⟩) [.nid ⟨1⟩],
    .append ⟨5⟩ { Store.foundingStamp ⟨20⟩ with status := .inactive } [.nid ⟨1⟩],
    .create [.uniform 6] (.semantic ⟨1⟩ ⟨2⟩), .append ⟨6⟩ (Store.foundingStamp ⟨20⟩) [.nid ⟨2⟩],
    .importHistory [0], .rebuildIndex]

theorem run_keeps_taxonomy_of_turning :
    ∃ v v' closure, Viewpoint.make Store.betweenCommits .empty .standard = .ok v ∧
      (ofFirst v).children (Store.empty.run retargeting) ⟨1⟩ = .ok (.ofList [⟨2⟩]) ∧
      (ofFirst v).children ((Store.empty.run retargeting).run turning) ⟨1⟩ =
        .ok (.ofList [⟨2⟩]) ∧
      (ofFirst v).closureFrom (Store.empty.run retargeting) [⟨1⟩] = .ok closure ∧
      closure.isDescendantOf ⟨2⟩ ⟨1⟩ = true ∧
      (ofFirst v).closureFrom ((Store.empty.run retargeting).run turning) [⟨1⟩] = .ok closure ∧
      Viewpoint.make (.latestOn ⟨1⟩) .empty .standard = .ok v' ∧
      (ofFirst v').children ((Store.empty.run retargeting).run turning) ⟨1⟩ =
        .ok (.ofList [⟨1⟩]) := by
  have hs : (Store.empty.run retargeting).Reachable := ⟨retargeting, rfl⟩
  obtain ⟨v, hv, hw, hbelow, closure, hclosure, hbelows⟩ :
      ∃ v, Viewpoint.make Store.betweenCommits .empty .standard = .ok v ∧
        v.windows = ⟨[(⟨1⟩, ⟨15⟩)]⟩ ∧
        (ofFirst v).children (Store.empty.run retargeting) ⟨1⟩ = .ok (.ofList [⟨2⟩]) ∧
        ∃ closure, (ofFirst v).closureFrom (Store.empty.run retargeting) [⟨1⟩] = .ok closure ∧
          closure.isDescendantOf ⟨2⟩ ⟨1⟩ = true :=
    ⟨_, by cbv, by cbv, by cbv, _, by cbv, by cbv⟩
  obtain ⟨v', hv', hnow⟩ : ∃ v', Viewpoint.make (.latestOn ⟨1⟩) .empty .standard = .ok v' ∧
      (ofFirst v').children ((Store.empty.run retargeting).run turning) ⟨1⟩ =
        .ok (.ofList [⟨1⟩]) := ⟨_, by cbv, by cbv⟩
  have hall : (((Store.empty.run retargeting).run turning).components.all fun n =>
      ((Store.empty.run retargeting).committedSince ((Store.empty.run retargeting).run turning)
        n).all fun version => decide (⟨15⟩ < version.stamp.time)) = true := by cbv
  have hlater : ∀ n, ∀ version ∈ (Store.empty.run retargeting).committedSince
      ((Store.empty.run retargeting).run turning) n, v.EndsBefore version.stamp.time := by
    intro n version hversion path seen hseen
    rw [Viewpoint.window?, hw] at hseen
    obtain ⟨-, rfl⟩ := Prod.mk.inj (List.mem_singleton.1 (Table.mem_entries_of_get? hseen))
    have hn := Store.mem_components_of_mem_committedSince hversion
    exact of_decide_eq_true (List.all_eq_true.1 (List.all_eq_true.1 hall n hn) version hversion)
  have hops : ∀ op ∈ turning, op ≠ .reset := by simp [turning]
  obtain ⟨hneighbours, hclosures⟩ :=
    run_keeps_taxonomy (t := ofFirst v) hs (fun _ _ => rfl) hops hlater
  obtain ⟨below, -, hbefore, hafter, -, -⟩ := hneighbours ⟨1⟩ (by cbv)
  obtain rfl : NidSet.ofList [⟨2⟩] = below := Except.ok.inj (hbelow.symm.trans hbefore)
  exact ⟨v, v', closure, hv, hbelow, hafter, hclosure, hbelows, hclosures _ _ hclosure, hv', hnow⟩

end Bitemporal.Taxonomy
