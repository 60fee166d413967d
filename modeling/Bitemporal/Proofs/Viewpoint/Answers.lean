import Bitemporal.Proofs.Viewpoint.Candidates
import Bitemporal.Proofs.Viewpoint.Making
import Mathlib

/-!
# What is promised of an answer

Whatever the history, what a viewpoint sees of it is some of the visible versions,
on different paths, and it is nothing only if nothing is visible: no rule drops
the last candidate. By path specificity this holds as the paths that are seen do
not inherit from themselves, so that some candidate is no ancestor of another one.

What a rule establishes, a rule after it does not undo, as it only drops further
candidates (`chooseAll_of_mem`). So the order of the rules does not matter for what
holds in the end (`latest_guarantees`).
-/

namespace Bitemporal.Viewpoint

variable {filter : Filter} {l : Lineage} {order : TieBreakOrder} {v : Viewpoint}

/-! ## Single rules -/

theorem choose_sublist (c : List Version) (rule : TieBreak) : (v.choose c rule).Sublist c := by
  cases rule with
  | pathSpecificity => exact List.filter_sublist
  | modulePriority =>
    rw [choose]
    split
    · exact List.filter_sublist
    · exact .refl c

theorem mem_mostSpecific_iff (hv : make filter l order = .ok v) {c : List Version}
    (hw : ∀ a ∈ c, (v.window? a.stamp.path).isSome) {a : Version} :
    a ∈ v.mostSpecific c ↔ a ∈ c ∧ ∀ b ∈ c, ¬l.Inherits b.stamp.path a.stamp.path := by
  rw [mostSpecific, List.mem_filter, Bool.not_eq_true', ← Bool.not_eq_true, List.any_eq_true]
  refine and_congr_right fun ha => ⟨fun h b hb hab => h ⟨b, hb, ?_⟩, fun h => ?_⟩
  · rw [Bool.and_eq_true, decide_eq_true_iff, isAncestor_iff hv (hw b hb)]
    refine ⟨fun e => not_inherits_self_of_make hv (hw a ha) ?_, hab⟩
    rwa [e] at hab
  · rintro ⟨b, hb, hab⟩
    exact h b hb ((isAncestor_iff hv (hw b hb)).1 (Bool.and_eq_true_iff.1 hab).2)

/-- Among finitely many paths that do not inherit from themselves, there is one
    from which no other one inherits. -/
theorem mostSpecific_ne_nil (hv : make filter l order = .ok v) {c : List Version} (hc : c ≠ [])
    (hw : ∀ a ∈ c, (v.window? a.stamp.path).isSome) : v.mostSpecific c ≠ [] := by
  let below (b a : {a // a ∈ c}) : Prop := l.Inherits b.1.stamp.path a.1.stamp.path
  have : Finite {a // a ∈ c} := (List.finite_toSet c).to_subtype
  have : IsTrans _ below := ⟨fun _ _ _ => Relation.TransGen.trans⟩
  have : Std.Irrefl below := ⟨fun a => not_inherits_self_of_make hv (hw a.1 a.2)⟩
  have wf : WellFounded below := Finite.wellFounded_of_trans_of_irrefl below
  obtain ⟨a, ha⟩ := List.exists_mem_of_ne_nil c hc
  obtain ⟨⟨m, hm⟩, -, hmin⟩ := wf.has_min Set.univ ⟨⟨a, ha⟩, trivial⟩
  have hmem : m ∈ v.mostSpecific c :=
    (mem_mostSpecific_iff hv hw).2 ⟨hm, fun b hb => hmin ⟨b, hb⟩ trivial⟩
  exact List.ne_nil_of_mem hmem

theorem bestRanked_ne_nil {c : List Version} (hc : c ≠ []) : v.bestRanked c ≠ [] := by
  cases ha : c.argmin v.rank with
  | none => exact absurd (List.argmin_eq_none.1 ha) hc
  | some a =>
    have hmem : a ∈ v.bestRanked c := by
      refine List.mem_filter.2 ⟨List.argmin_mem ha, List.all_eq_true.2 fun b hb => ?_⟩
      exact decide_eq_true (List.le_of_mem_argmin hb ha)
    exact List.ne_nil_of_mem hmem

theorem choose_ne_nil (hv : make filter l order = .ok v) {c : List Version} (hc : c ≠ [])
    (hw : ∀ a ∈ c, (v.window? a.stamp.path).isSome) (rule : TieBreak) : v.choose c rule ≠ [] := by
  cases rule with
  | pathSpecificity => exact mostSpecific_ne_nil hv hc hw
  | modulePriority =>
    rw [choose]
    split
    · exact bestRanked_ne_nil hc
    · exact hc

/-! ## All rules -/

theorem chooseAll_sublist (c : List Version) (rules : List TieBreak) :
    (v.chooseAll c rules).Sublist c := by
  induction rules generalizing c with
  | nil => exact .refl c
  | cons rule rules ih =>
    rw [chooseAll]
    split
    · exact .refl c
    · exact (ih _).trans (choose_sublist c rule)

theorem chooseAll_ne_nil (hv : make filter l order = .ok v) {c : List Version} (hc : c ≠ [])
    (hw : ∀ a ∈ c, (v.window? a.stamp.path).isSome) (rules : List TieBreak) :
    v.chooseAll c rules ≠ [] := by
  induction rules generalizing c with
  | nil => exact hc
  | cons rule rules ih =>
    rw [chooseAll]
    split
    · exact hc
    · exact ih (choose_ne_nil hv hc hw rule) fun a ha => hw a ((choose_sublist c rule).subset ha)

/-- What a rule of the order establishes holds in the end, if it is kept when
    candidates are dropped and holds of fewer than two of them anyway. -/
theorem chooseAll_of_mem {P : List Version → Prop} {rule : TieBreak} {rules : List TieBreak}
    (hr : rule ∈ rules) {c : List Version}
    (hkeep : ∀ {c₁ c₂ : List Version}, c₁.Sublist c₂ → P c₂ → P c₁)
    (hfew : ∀ c₁, c₁.Sublist c → c₁.length < 2 → P c₁)
    (hrule : ∀ c₁, c₁.Sublist c → P (v.choose c₁ rule)) : P (v.chooseAll c rules) := by
  induction rules generalizing c with
  | nil => simp at hr
  | cons first rules ih =>
    rw [chooseAll]
    split
    · next hc => exact hfew c (.refl c) hc
    · have hsub := choose_sublist (v := v) c first
      rcases List.mem_cons.1 hr with rfl | hr
      · exact hkeep (chooseAll_sublist _ rules) (hrule c (.refl c))
      · exact ih hr (fun c₁ h => hfew c₁ (h.trans hsub)) fun c₁ h => hrule c₁ (h.trans hsub)

/-- If path specificity is applied, no path that is left inherits from another one. -/
theorem not_inherits_of_mem_chooseAll (hv : make filter l order = .ok v) {rules : List TieBreak}
    (hr : .pathSpecificity ∈ rules) {c : List Version}
    (hw : ∀ a ∈ c, (v.window? a.stamp.path).isSome) :
    ∀ a ∈ v.chooseAll c rules, ∀ b ∈ v.chooseAll c rules,
      ¬l.Inherits b.stamp.path a.stamp.path := by
  refine chooseAll_of_mem (P := fun c => ∀ a ∈ c, ∀ b ∈ c, ¬l.Inherits b.stamp.path a.stamp.path)
    hr (fun hsub h a ha b hb => h a (hsub.subset ha) b (hsub.subset hb)) ?_ ?_
  · intro c₁ hsub hfew a ha b hb
    obtain rfl : a = b := by
      match c₁, hfew with
      | [x], _ => rw [List.mem_singleton.1 ha, List.mem_singleton.1 hb]
    exact not_inherits_self_of_make hv (hw a (hsub.subset ha))
  · intro c₁ hsub a ha b hb
    have hw₁ : ∀ a ∈ c₁, (v.window? a.stamp.path).isSome := fun a ha => hw a (hsub.subset ha)
    exact ((mem_mostSpecific_iff hv hw₁).1 ha).2 b ((mem_mostSpecific_iff hv hw₁).1 hb).1

/-- If module priority is applied, the modules that are left have the same rank. -/
theorem rank_eq_of_mem_chooseAll (hm : v.filter.modules.isPrioritized = true)
    {rules : List TieBreak} (hr : .modulePriority ∈ rules) (c : List Version) :
    ∀ a ∈ v.chooseAll c rules, ∀ b ∈ v.chooseAll c rules, v.rank a = v.rank b := by
  refine chooseAll_of_mem (P := fun c => ∀ a ∈ c, ∀ b ∈ c, v.rank a = v.rank b) hr
    (fun hsub h a ha b hb => h a (hsub.subset ha) b (hsub.subset hb)) ?_ ?_
  · intro c₁ _ hfew a ha b hb
    match c₁, hfew with
    | [x], _ => rw [List.mem_singleton.1 ha, List.mem_singleton.1 hb]
  · intro c₁ _ a ha b hb
    rw [choose, if_pos hm, bestRanked] at ha hb
    obtain ⟨ha, hab⟩ := List.mem_filter.1 ha
    obtain ⟨hb, hba⟩ := List.mem_filter.1 hb
    exact Nat.le_antisymm (decide_eq_true_iff.1 (List.all_eq_true.1 hab b hb))
      (decide_eq_true_iff.1 (List.all_eq_true.1 hba a ha))

/-! ## The answer -/

theorem isEmpty_iff (x : Latest) : x.isEmpty = true ↔ x.versions = [] := by
  cases x <;> simp [Latest.isEmpty, Latest.versions]

theorem isContradiction_iff (x : Latest) :
    x.isContradiction = true ↔ ∃ a b others, x.versions = a :: b :: others := by
  cases x <;> simp [Latest.isContradiction, Latest.versions]

theorem versions_latest (v : Viewpoint) (h : History) :
    (v.latest h).versions = v.chooseAll (v.candidates (v.visible h)) v.tieBreaks.rules := by
  rw [latest, resolve, Latest.versions_ofCandidates, visible]

/-- What is resolved is drawn from the committed versions that pass. -/
theorem mem_filter_of_mem_resolve {statuses : StatusSet} {h : History} {a : Version}
    (ha : a ∈ (v.resolve statuses h).versions) : a ∈ h.committed.filter (v.passes statuses) := by
  rw [resolve, Latest.versions_ofCandidates] at ha
  exact mem_of_mem_candidates ((chooseAll_sublist _ _).subset ha)

/-- What is current is what is resolved among all statuses, if its status counts. -/
theorem mem_current_iff {h : History} {a : Version} :
    a ∈ (v.current h).versions ↔
      a ∈ (v.resolve .all h).versions ∧ v.filter.statuses.contains a.stamp.status = true := by
  rw [current, Latest.versions_ofCandidates, List.mem_filter]

theorem mem_committed_of_mem_current {h : History} {a : Version}
    (ha : a ∈ (v.current h).versions) : a ∈ h.committed :=
  (List.mem_filter.1 (mem_filter_of_mem_resolve (mem_current_iff.1 ha).1)).1

theorem candidates_eq_nil_iff {versions : List Version} :
    v.candidates versions = [] ↔ versions = [] := by
  constructor
  · intro h
    refine List.eq_nil_iff_forall_not_mem.2 fun a ha => ?_
    have hp : a.stamp.path ∈ (v.candidates versions).map fun b => b.stamp.path :=
      map_path_candidates.2 (List.mem_map_of_mem ha)
    rw [h] at hp
    exact List.not_mem_nil hp
  · rintro rfl
    rfl

theorem versions_latest_sublist (v : Viewpoint) (h : History) :
    (v.latest h).versions.Sublist (v.candidates (v.visible h)) := by
  rw [versions_latest]
  exact chooseAll_sublist _ _

theorem mem_visible_of_mem_latest {h : History} {a : Version} (ha : a ∈ (v.latest h).versions) :
    a ∈ v.visible h :=
  mem_of_mem_candidates ((versions_latest_sublist v h).subset ha)

theorem isSome_window?_of_mem_latest {h : History} {a : Version}
    (ha : a ∈ (v.latest h).versions) : (v.window? a.stamp.path).isSome :=
  isSome_window?_of_mem_candidates ((versions_latest_sublist v h).subset ha)

theorem path_ne_latest (v : Viewpoint) (h : History) :
    (v.latest h).versions.Pairwise fun a b => a.stamp.path ≠ b.stamp.path :=
  (pathsAscend_candidates _).path_ne.sublist (versions_latest_sublist v h)

theorem two_le_length_of_isContradiction {x : Latest} (hx : x.isContradiction = true) :
    2 ≤ x.versions.length := by
  obtain ⟨a, b, others, hab⟩ := (isContradiction_iff x).1 hx
  simp [hab]

/-- The rules do not drop everything that is visible. -/
theorem isEmpty_latest_iff (hv : make filter l order = .ok v) (h : History) :
    (v.latest h).isEmpty = true ↔ v.visible h = [] := by
  rw [isEmpty_iff, versions_latest]
  constructor
  · intro he
    by_contra hne
    have hc : v.candidates (v.visible h) ≠ [] := candidates_eq_nil_iff.not.2 hne
    exact chooseAll_ne_nil hv hc (fun a ha => isSome_window?_of_mem_candidates ha) _ he
  · intro he
    rw [candidates_eq_nil_iff.2 he]
    exact List.sublist_nil.1 (chooseAll_sublist [] _)

theorem not_inherits_of_mem_latest (hv : make filter l order = .ok v) {h : History}
    (hr : .pathSpecificity ∈ order.rules) {a b : Version} (ha : a ∈ (v.latest h).versions)
    (hb : b ∈ (v.latest h).versions) : ¬l.Inherits b.stamp.path a.stamp.path := by
  rw [versions_latest, (make_eq_ok hv).2.1] at ha hb
  exact not_inherits_of_mem_chooseAll hv hr (fun a ha => isSome_window?_of_mem_candidates ha) a ha
    b hb

theorem rank_eq_of_mem_latest (hv : make filter l order = .ok v) {h : History}
    (hr : .modulePriority ∈ order.rules) (hm : filter.modules.isPrioritized = true) {a b : Version}
    (ha : a ∈ (v.latest h).versions) (hb : b ∈ (v.latest h).versions) :
    filter.modules.rank a.stamp.module = filter.modules.rank b.stamp.module := by
  obtain ⟨rfl, ht, -⟩ := make_eq_ok hv
  rw [versions_latest, ht] at ha hb
  exact rank_eq_of_mem_chooseAll hm hr _ a ha b hb

/-- Of two paths of a chain one inherits from the other, so only one of them is left. -/
theorem not_isContradiction_of_chain (hv : make filter l order = .ok v) (h : History)
    (hr : .pathSpecificity ∈ order.rules)
    (hchain : ∀ p q, (v.window? p).isSome → (v.window? q).isSome → p ≠ q →
      l.Inherits p q ∨ l.Inherits q p) :
    (v.latest h).isContradiction = false := by
  by_contra hc
  obtain ⟨a, b, others, hab⟩ := (isContradiction_iff _).1 (Bool.not_eq_false _ ▸ hc)
  have ha : a ∈ (v.latest h).versions := by simp [hab]
  have hb : b ∈ (v.latest h).versions := by simp [hab]
  have hne : a.stamp.path ≠ b.stamp.path := by
    have hpaths := path_ne_latest v h
    rw [hab] at hpaths
    exact (List.pairwise_cons.1 hpaths).1 b List.mem_cons_self
  rcases hchain _ _ (isSome_window?_of_mem_latest ha) (isSome_window?_of_mem_latest hb) hne
    with hi | hi
  · exact not_inherits_of_mem_latest hv hr hb ha hi
  · exact not_inherits_of_mem_latest hv hr ha hb hi

/-- What is seen of a history is nothing only if nothing is visible; it is some of
    the visible versions, on different paths, and two of them at least if they
    contradict each other. If paths are chosen by specificity, none that is left
    inherits from another one, so a single chain of paths never contradicts
    itself; if modules are chosen by priority, those left have one rank. -/
theorem latest_guarantees (hv : make filter l order = .ok v) (h : History) :
    ((v.latest h).isEmpty = true ↔ v.visible h = []) ∧
    (∀ a ∈ (v.latest h).versions, a ∈ v.visible h) ∧
    ((v.latest h).versions.Pairwise fun a b => a.stamp.path ≠ b.stamp.path) ∧
    ((v.latest h).isContradiction = true → 2 ≤ (v.latest h).versions.length) ∧
    (.pathSpecificity ∈ order.rules → ∀ a ∈ (v.latest h).versions, ∀ b ∈ (v.latest h).versions,
      ¬l.Inherits b.stamp.path a.stamp.path) ∧
    (.modulePriority ∈ order.rules → filter.modules.isPrioritized = true →
      ∀ a ∈ (v.latest h).versions, ∀ b ∈ (v.latest h).versions,
        filter.modules.rank a.stamp.module = filter.modules.rank b.stamp.module) ∧
    (.pathSpecificity ∈ order.rules →
      (∀ p q, (v.window? p).isSome → (v.window? q).isSome → p ≠ q →
        l.Inherits p q ∨ l.Inherits q p) →
      (v.latest h).isContradiction = false) := by
  refine ⟨isEmpty_latest_iff hv h, fun a ha => mem_visible_of_mem_latest ha, path_ne_latest v h,
    two_le_length_of_isContradiction, ?_, ?_, not_isContradiction_of_chain hv h⟩
  · exact fun hr a ha b hb => not_inherits_of_mem_latest hv hr ha hb
  · exact fun hr hm a ha b hb => rank_eq_of_mem_latest hv hr hm ha hb

open Fork in
/-- A reader on one of two branches sees a chain of paths. -/
theorem latest_guarantees_on_branch :
    ∃ v, make (.latestOn ⟨2⟩) lineage .standard = .ok v ∧ v.visible history ≠ [] ∧
      (v.latest history).isEmpty = false ∧ (v.latest history).isContradiction = false := by
  obtain ⟨v, hv, hw, hvisible⟩ : ∃ v, make (.latestOn ⟨2⟩) lineage .standard = .ok v ∧
      v.windows.keys = [⟨2⟩, ⟨1⟩] ∧ (v.visible history).isEmpty = false :=
    ⟨_, by cbv, by cbv, by cbv⟩
  have hne : v.visible history ≠ [] := by
    rintro he
    simp [he] at hvisible
  obtain ⟨hempty, -, -, -, -, -, hchain⟩ := latest_guarantees hv history
  refine ⟨v, hv, hne, Bool.eq_false_iff.2 (hempty.not.2 hne), hchain (by decide) ?_⟩
  have hinherits : lineage.Inherits ⟨2⟩ ⟨1⟩ := .single ⟨⟨⟨1⟩, ⟨100⟩⟩, by decide, rfl⟩
  have hpath : ∀ p, (v.window? p).isSome → p = ⟨2⟩ ∨ p = ⟨1⟩ := by
    intro p hp
    have hp := Table.contains_iff_mem_keys.1 hp
    rw [hw] at hp
    simpa using hp
  intro p q hp hq hne
  rcases hpath p hp with rfl | rfl
  · rcases hpath q hq with rfl | rfl
    · exact absurd rfl hne
    · exact .inl hinherits
  · rcases hpath q hq with rfl | rfl
    · exact .inr hinherits
    · exact absurd rfl hne

end Bitemporal.Viewpoint
