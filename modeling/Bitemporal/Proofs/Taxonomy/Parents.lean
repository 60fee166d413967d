import Bitemporal.Proofs.Taxonomy.Edges
import Bitemporal.Proofs.Viewpoint.Answers

/-!
# Parents

The question for the parents of a component goes up by an index that may be any: it names
components, and each of them is looked at in the store before anything is made of it. What
it names in excess, be it unknown, no semantic, of another assemblage or no longer about
the component, is passed over. So the answer is never more than what a scan of all
histories finds above the component, and it is all of that if every semantic that leads to
the component is named (`Taxonomy.parents_eq_scan`).

The index of the store names them all (`Taxonomy.findsAll_of_usesOwnIndex`): it has been
told of every component number that a committed version holds, and a version that counts
is a committed one.

Since both questions answer what the scan finds, what is below and what is above agree
(`Taxonomy.mem_children_iff_mem_parents`), although they look for edges by different
indices and look at the concept at opposite ends.
-/

namespace Bitemporal.Taxonomy

variable {t : Taxonomy} {s : Store} {h : History} {n parent child : Nid} {version : Version}

/-- A semantic leads from one component to another. -/
def Leads (t : Taxonomy) (s : Store) (n parent child : Nid) : Prop :=
  ∃ h, s.history n = .ok h ∧ h.shape = .semantic t.assemblage parent ∧
    ∃ version, t.Counts h version ∧ version.Holds t.childField child

/-- The index that is asked for the edges to a component names every semantic that leads
    to it from a parent that is seen. -/
def FindsAll (t : Taxonomy) (s : Store) (child : Nid) : Prop :=
  ∀ n parent, t.Leads s n parent child → t.Seen s parent → n ∈ t.reverse s child

/-- The edges to a component are found by the index of the store. -/
def UsesOwnIndex (t : Taxonomy) : Prop :=
  ∀ s value, t.reverse s value = (s.semanticsHolding value).toList

theorem edge_iff_exists_leads : t.Edge s parent child ↔ ∃ n, t.Leads s n parent child := Iff.rfl

/-- A taxonomy uses the index of the store as long as it is given no other. -/
theorem usesOwnIndex_of_make {assemblage : Nid} {childField : Nat} {v : Viewpoint}
    (ht : make s assemblage childField v = .ok t) : t.UsesOwnIndex := by
  obtain ⟨schema, -, ht⟩ := bind_eq_ok_iff.1 ht
  split at ht
  · obtain rfl := pure_eq_ok_iff.1 ht
    exact fun _ _ => rfl
  · cases ht
  · cases ht

/-! ## Hits of an index -/

/-- A hit leads to a parent only if it is a semantic that does so in the store. -/
theorem parentThrough?_eq_some_iff :
    t.parentThrough? s child n = some parent ↔ t.Leads s n parent child ∧ t.Seen s parent := by
  rw [parentThrough?, Leads]
  simp only [Store.history_eq_ok_iff]
  cases s.histories.get? n with
  | none => simp
  | some h =>
    cases hshape : h.shape with
    | concept => simp [hshape]
    | semantic assemblage referenced =>
      simp only [hshape, Option.ite_none_right_eq_some, mem_ends_iff, sees_iff, Option.some.injEq,
        exists_eq_left', Shape.semantic.injEq]
      constructor
      · rintro ⟨⟨ha, hends, hseen⟩, rfl⟩
        exact ⟨⟨⟨ha, rfl⟩, hends⟩, hseen⟩
      · rintro ⟨⟨⟨ha, rfl⟩, hends⟩, hseen⟩
        exact ⟨⟨ha, hends, hseen⟩, rfl⟩

/-- Whatever the index names, the question is answered for a component that is there: by
    no more than what a scan finds, and by all of it if nothing is missing in the index. -/
theorem exists_parents (hchild : s.history child = .ok h) :
    ∃ above, t.parents s child = .ok above ∧
      (∀ parent ∈ above, t.Edge s parent child ∧ t.Seen s parent) ∧
      (t.FindsAll s child →
        ∀ parent, parent ∈ above ↔ t.Edge s parent child ∧ t.Seen s parent) := by
  have hmem (parent : Nid) :
      parent ∈ NidSet.ofList ((t.reverse s child).filterMap (t.parentThrough? s child)) ↔
        ∃ n ∈ t.reverse s child, t.Leads s n parent child ∧ t.Seen s parent := by
    simp only [NidSet.mem_ofList, List.mem_filterMap, parentThrough?_eq_some_iff]
  have hsound (parent : Nid)
      (hp : parent ∈ NidSet.ofList ((t.reverse s child).filterMap (t.parentThrough? s child))) :
      t.Edge s parent child ∧ t.Seen s parent := by
    obtain ⟨n, -, hl, hseen⟩ := (hmem parent).1 hp
    exact ⟨edge_iff_exists_leads.2 ⟨n, hl⟩, hseen⟩
  refine ⟨_, ?_, hsound, fun hall parent => ⟨hsound parent, ?_⟩⟩
  · rw [parents, hchild]
    rfl
  · rintro ⟨hedge, hseen⟩
    obtain ⟨n, hl⟩ := edge_iff_exists_leads.1 hedge
    exact (hmem parent).2 ⟨n, hall n parent hl hseen, hl, hseen⟩

/-! ## The index of the store -/

/-- A semantic that leads to a component is listed under its number, as a version that
    counts is a committed one. -/
theorem Leads.mem_semanticsHolding (hl : t.Leads s n parent child) (hs : s.Indexed) :
    n ∈ s.semanticsHolding child := by
  obtain ⟨h, hh, -, version, hcounts, tuple, hpayload, hread⟩ := hl
  have hcommitted : version ∈ h.committed := Viewpoint.mem_committed_of_mem_current hcounts.1
  refine (hs.mem_under (.value child) n).2 ⟨h, hh, .inr ⟨version, hcommitted, ?_⟩⟩
  exact ⟨tuple, hpayload, t.childField, hread⟩

theorem findsAll_of_usesOwnIndex (ht : t.UsesOwnIndex) (hs : s.Indexed) (child : Nid) :
    t.FindsAll s child := by
  intro n parent hl _
  rw [ht]
  exact hl.mem_semanticsHolding hs

/-- By the index of the store the answer is what the scan finds. -/
theorem exists_parents_eq_scan (ht : t.UsesOwnIndex) (hs : s.Indexed)
    (hchild : s.history child = .ok h) :
    ∃ above, t.parents s child = .ok above ∧
      ∀ parent, parent ∈ above ↔ t.Edge s parent child ∧ t.Seen s parent := by
  obtain ⟨above, habove, -, hscan⟩ := exists_parents (t := t) hchild
  exact ⟨above, habove, hscan (findsAll_of_usesOwnIndex ht hs child)⟩

/-- The parents of a component are refused for what is no component only. Whatever the
    index names, they are some of those that a scan of all histories finds above it, and
    they are these if every semantic that leads to it from a parent that is seen is named.
    In a store that can be reached the index of the store does name them. -/
theorem parents_eq_scan (hs : s.Reachable) (t : Taxonomy) (child : Nid) :
    (s.contains child = false → t.parents s child = .error (.unknownIdentifier child)) ∧
    (s.contains child = true → ∃ above, t.parents s child = .ok above ∧
      (∀ parent ∈ above, t.Edge s parent child ∧ t.Seen s parent) ∧
      (t.FindsAll s child →
        ∀ parent, parent ∈ above ↔ t.Edge s parent child ∧ t.Seen s parent) ∧
      (t.UsesOwnIndex →
        ∀ parent, parent ∈ above ↔ t.Edge s parent child ∧ t.Seen s parent)) := by
  refine ⟨fun hnone => ?_, fun hsome => ?_⟩
  · rw [parents, Store.history, Store.contains_eq_false_iff.1 hnone]
    rfl
  · obtain ⟨h, hh⟩ := Store.exists_history hsome
    obtain ⟨above, habove, hsound, hscan⟩ := exists_parents (t := t) hh
    refine ⟨above, habove, hsound, hscan, fun ht => hscan ?_⟩
    exact findsAll_of_usesOwnIndex ht (Store.indexed_of_reachable hs) child

/-- Both concepts are seen, and a further edge, which led from the concept 2 to itself,
    leads to the concept 1 now. -/
def retargeting : List Store.Operation :=
  branching ++ [.append ⟨1⟩ (Store.foundingStamp ⟨10⟩) [],
    .create [.uniform 5] (.semantic ⟨1⟩ ⟨2⟩), .append ⟨5⟩ (Store.foundingStamp ⟨10⟩) [.nid ⟨2⟩],
    .append ⟨5⟩ (Store.foundingStamp ⟨12⟩) [.nid ⟨1⟩]]

/-- An index that names an unknown component, a concept and the edge that led to the
    component before, and one semantic twice. -/
def withStaleHits (t : Taxonomy) : Taxonomy :=
  t.withReverse fun _ _ => [⟨9⟩, ⟨2⟩, ⟨5⟩, ⟨3⟩, ⟨3⟩]

theorem parents_eq_scan_of_stale_hits :
    ∃ v, Viewpoint.make Store.betweenCommits .empty .standard = .ok v ∧
      (ofFirst v).withStaleHits.parents (Store.empty.run retargeting) ⟨2⟩ =
        .ok (.ofList [⟨1⟩]) ∧
      (ofFirst v).withStaleHits.Edge (Store.empty.run retargeting) ⟨1⟩ ⟨2⟩ ∧
      (ofFirst v).parents (Store.empty.run retargeting) ⟨2⟩ = .ok (.ofList [⟨1⟩]) ∧
      ¬((ofFirst v).Edge (Store.empty.run retargeting) ⟨2⟩ ⟨2⟩ ∧
        (ofFirst v).Seen (Store.empty.run retargeting) ⟨2⟩) := by
  have hs : (Store.empty.run retargeting).Reachable := ⟨retargeting, rfl⟩
  have hthere : (Store.empty.run retargeting).contains ⟨2⟩ = true := by cbv
  obtain ⟨v, hv, hstale, hown⟩ :
      ∃ v, Viewpoint.make Store.betweenCommits .empty .standard = .ok v ∧
        (ofFirst v).withStaleHits.parents (Store.empty.run retargeting) ⟨2⟩ =
          .ok (.ofList [⟨1⟩]) ∧
        (ofFirst v).parents (Store.empty.run retargeting) ⟨2⟩ = .ok (.ofList [⟨1⟩]) :=
    ⟨_, by cbv, by cbv, by cbv⟩
  obtain ⟨above, habove, hsound, -⟩ := (parents_eq_scan hs (ofFirst v).withStaleHits ⟨2⟩).2 hthere
  obtain rfl : NidSet.ofList [⟨1⟩] = above := Except.ok.inj (hstale.symm.trans habove)
  obtain ⟨above, habove, -, -, hscan⟩ := (parents_eq_scan hs (ofFirst v) ⟨2⟩).2 hthere
  obtain rfl : NidSet.ofList [⟨1⟩] = above := Except.ok.inj (hown.symm.trans habove)
  refine ⟨v, hv, hstale, (hsound ⟨1⟩ (by decide)).1, hown, fun hedge => ?_⟩
  exact absurd ((hscan (fun _ _ => rfl) ⟨2⟩).2 hedge) (by decide)

/-! ## Both directions -/

theorem isVisible_eq_ok_true_iff : t.isVisible s n = .ok true ↔ t.Seen s n := by
  rw [isVisible, Seen]
  cases s.history n with
  | error e => simp [Except.map]
  | ok h => cases hc : t.viewpoint.current h <;> simp [Except.map, hc, Latest.isEmpty]

/-- In a store that can be reached, and with its own index, a component that is seen has
    another one below it exactly if that one is seen and has the first above it. So among
    components that are seen, to be a child is to be among the children. -/
theorem mem_children_iff_mem_parents (hs : s.Reachable) (ht : t.UsesOwnIndex)
    (hparent : s.contains parent = true) (hchild : s.contains child = true) :
    ∃ below above, t.children s parent = .ok below ∧ t.parents s child = .ok above ∧
      (child ∈ below ∧ t.isVisible s parent = .ok true ↔
        parent ∈ above ∧ t.isVisible s child = .ok true) ∧
      (t.isVisible s parent = .ok true → t.isVisible s child = .ok true →
        t.isChildOf s child parent = .ok (decide (child ∈ below))) := by
  have hi := Store.indexed_of_reachable hs
  obtain ⟨k, hk⟩ := Store.exists_history hparent
  obtain ⟨h, hh⟩ := Store.exists_history hchild
  obtain ⟨below, hbelow, hmem⟩ := exists_children (t := t) hi hk
  obtain ⟨above, habove, hmem'⟩ := exists_parents_eq_scan ht hi hh
  have hagree : child ∈ below ∧ t.isVisible s parent = .ok true ↔
      parent ∈ above ∧ t.isVisible s child = .ok true := by
    rw [hmem, hmem', isVisible_eq_ok_true_iff, isVisible_eq_ok_true_iff]
    exact and_right_comm
  refine ⟨below, above, hbelow, habove, hagree, fun hp hc => ?_⟩
  rw [isChildOf, habove]
  have hiff : parent ∈ above ↔ child ∈ below := by
    simpa only [hp, hc, and_true] using hagree.symm
  show Except.ok (decide (parent ∈ above)) = _
  rw [decide_eq_decide.2 hiff]

/-- The concepts 1 and 2 lie below each other, and the concept 2 not below itself any
    more. -/
theorem mem_children_iff_mem_parents_of_retargeting :
    ∃ v, Viewpoint.make Store.betweenCommits .empty .standard = .ok v ∧
      (ofFirst v).isVisible (Store.empty.run retargeting) ⟨1⟩ = .ok true ∧
      (ofFirst v).isVisible (Store.empty.run retargeting) ⟨2⟩ = .ok true ∧
      (ofFirst v).children (Store.empty.run retargeting) ⟨2⟩ = .ok (.ofList [⟨1⟩]) ∧
      (ofFirst v).isChildOf (Store.empty.run retargeting) ⟨1⟩ ⟨2⟩ = .ok true ∧
      (ofFirst v).isChildOf (Store.empty.run retargeting) ⟨2⟩ ⟨2⟩ = .ok false := by
  have hs : (Store.empty.run retargeting).Reachable := ⟨retargeting, rfl⟩
  have hone : (Store.empty.run retargeting).contains ⟨1⟩ = true := by cbv
  have htwo : (Store.empty.run retargeting).contains ⟨2⟩ = true := by cbv
  obtain ⟨v, hv, hmake, hseen₁, hseen₂, hbelow⟩ :
      ∃ v, Viewpoint.make Store.betweenCommits .empty .standard = .ok v ∧
        make (Store.empty.run retargeting) ⟨1⟩ 0 v = .ok (ofFirst v) ∧
        (ofFirst v).isVisible (Store.empty.run retargeting) ⟨1⟩ = .ok true ∧
        (ofFirst v).isVisible (Store.empty.run retargeting) ⟨2⟩ = .ok true ∧
        (ofFirst v).children (Store.empty.run retargeting) ⟨2⟩ = .ok (.ofList [⟨1⟩]) :=
    ⟨_, by cbv, by cbv, by cbv, by cbv, by cbv⟩
  have hown := usesOwnIndex_of_make hmake
  obtain ⟨below, -, hchildren, -, -, hone'⟩ := mem_children_iff_mem_parents hs hown htwo hone
  obtain rfl : NidSet.ofList [⟨1⟩] = below := Except.ok.inj (hbelow.symm.trans hchildren)
  obtain ⟨below, -, hchildren, -, -, htwo'⟩ := mem_children_iff_mem_parents hs hown htwo htwo
  obtain rfl : NidSet.ofList [⟨1⟩] = below := Except.ok.inj (hbelow.symm.trans hchildren)
  exact ⟨v, hv, hseen₁, hseen₂, hbelow, hone' hseen₂ hseen₁, htwo' hseen₂ hseen₂⟩

end Bitemporal.Taxonomy
