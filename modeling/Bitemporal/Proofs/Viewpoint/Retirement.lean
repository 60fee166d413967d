import Bitemporal.Proofs.Viewpoint.Answers
import Bitemporal.Proofs.Viewpoint.Reference

/-!
# Retirement

A version is retired by a later one of a status that does not count. Which version is the
candidate of a path depends on the statuses that are asked for: it is the one that *prevails*
on the path, which no other version of these statuses beats (`Viewpoint.Prevails`,
`mem_candidates_iff`), and on each path there is one at most (`Prevails.unique`).

`Viewpoint.latest` asks for the statuses that count, and so it does not notice that a version
was retired. `Viewpoint.current` asks for all statuses, and drops what does not count when the
rules have been applied (`current_eq_of_make`). What is current therefore prevails on its path
among the versions of all statuses, and a path on which a version of another status prevails
shows nothing at all: what was beaten does not come up again (`current_never_revives`).
-/

namespace Bitemporal

theorem StatusSet.contains_all (status : Status) : StatusSet.all.contains status = true := by
  cases status <;> rfl

theorem Latest.eq_empty_of_versions {x : Latest} (h : x.versions = []) : x = .empty := by
  cases x with
  | empty => rfl
  | present version => cases h
  | contradiction first second others => cases h

namespace Viewpoint

variable {filter : Filter} {l : Lineage} {order : TieBreakOrder} {v : Viewpoint} {h : History}
  {statuses : StatusSet} {a b : Version} {place place' : Nat}

/-- A version with its place among the commits beats another one: it is later, or of the same
    time and in a better module, or of the same time and rank and committed later. -/
def Beats (v : Viewpoint) (b a : Version × Nat) : Prop :=
  a.1.stamp.time < b.1.stamp.time ∨ a.1.stamp.time = b.1.stamp.time ∧
    (v.rank b.1 < v.rank a.1 ∨ v.rank b.1 = v.rank a.1 ∧ a.2 < b.2)

/-- A committed version prevails on its path: it passes if the given statuses count, and no
    other version of the path that does so beats it. -/
structure Prevails (v : Viewpoint) (statuses : StatusSet) (h : History) (a : Version)
    (place : Nat) : Prop where
  committed : h.committed[place]? = some a
  passes : v.passes statuses a = true
  unbeaten : ∀ b place', h.committed[place']? = some b → v.passes statuses b = true →
    b.stamp.path = a.stamp.path → ¬v.Beats (b, place') (a, place)

/-! ## Versions that prevail -/

theorem beats_iff_key_lt {a b : Version × Nat} :
    v.Beats b a ↔ Reference.key v.filter a < Reference.key v.filter b :=
  Reference.key_lt_iff.symm

/-- Of two versions at different places, one that is not beaten beats the other one. -/
theorem Prevails.beats (hb : v.Prevails statuses h b place) (ha : h.committed[place']? = some a)
    (hpasses : v.passes statuses a = true) (hpath : a.stamp.path = b.stamp.path)
    (hplace : place' ≠ place) : v.Beats (b, place) (a, place') := by
  have hle := hb.unbeaten a place' ha hpasses hpath
  rw [beats_iff_key_lt] at hle ⊢
  refine lt_of_le_of_ne (not_lt.1 hle) fun hkey => hplace ?_
  exact congrArg (fun k => (ofLex (ofLex k).2).2) hkey

/-- On each path one version prevails at most. -/
theorem Prevails.unique (ha : v.Prevails statuses h a place) (hb : v.Prevails statuses h b place')
    (hpath : b.stamp.path = a.stamp.path) : b = a := by
  by_cases hplace : place' = place
  · exact Option.some.inj (hb.committed.symm.trans (hplace ▸ ha.committed))
  · exact absurd (hb.beats ha.committed ha.passes hpath.symm (Ne.symm hplace))
      (ha.unbeaten b place' hb.committed hb.passes hpath)

theorem mem_counted_iff :
    (a, place) ∈ Reference.counted (v.filter.withStatuses statuses) v.window? h ↔
      h.committed[place]? = some a ∧ v.passes statuses a = true := by
  rw [Reference.counted, List.mem_filter, List.mem_zipIdx_iff_getElem?, decide_eq_true_iff,
    ← Reference.passes_iff_counts rfl]

theorem exists_prevails_of_mem_candidates
    (ha : a ∈ v.candidates (h.committed.filter (v.passes statuses))) :
    ∃ place, v.Prevails statuses h a place := by
  have hon := (pathsAscend_candidates _).onPath?_of_mem ha
  have hplaces : (Reference.counted (v.filter.withStatuses statuses) v.window? h).Pairwise
      fun a b => a.2 < b.2 := (Reference.pairwise_zipIdx h.committed 0).filter _
  rw [← Reference.map_fst_counted rfl, Reference.onPath?_candidates rfl hplaces,
    Reference.winner?, Option.map_eq_some_iff] at hon
  obtain ⟨⟨_, place⟩, hmax, rfl⟩ := hon
  obtain ⟨hcounted, -⟩ := List.mem_filter.1 (List.argmax_mem hmax)
  obtain ⟨hcommitted, hpasses⟩ := mem_counted_iff.1 hcounted
  refine ⟨place, hcommitted, hpasses, fun b place' hb hbp hpath => ?_⟩
  rw [beats_iff_key_lt, not_lt]
  refine List.le_of_mem_argmax (List.mem_filter.2 ⟨mem_counted_iff.2 ⟨hb, hbp⟩, ?_⟩) hmax
  exact decide_eq_true hpath

/-- The candidates are the versions that prevail on their paths. -/
theorem mem_candidates_iff : a ∈ v.candidates (h.committed.filter (v.passes statuses)) ↔
    ∃ place, v.Prevails statuses h a place := by
  refine ⟨exists_prevails_of_mem_candidates, fun ⟨place, ha⟩ => ?_⟩
  have hmem : a ∈ h.committed.filter (v.passes statuses) :=
    List.mem_filter.2 ⟨List.mem_of_getElem? ha.committed, ha.passes⟩
  -- there is a candidate on its path, which prevails there too
  obtain ⟨c, hc, hpath⟩ := List.mem_map.1 (map_path_candidates.2 (List.mem_map_of_mem hmem))
  obtain ⟨_, hprevails⟩ := exists_prevails_of_mem_candidates hc
  rwa [ha.unique hprevails hpath] at hc

/-! ## What is current -/

/-- The same filter is accepted if other statuses count. -/
theorem exists_make_withStatuses (hv : make filter l order = .ok v) (statuses : StatusSet) :
    ∃ w, make (filter.withStatuses statuses) l order = .ok w ∧ w.windows = v.windows := by
  obtain ⟨⟨⟩, hchecked, hrest⟩ := bind_eq_ok_iff.1 hv
  obtain ⟨t, ht, -⟩ := bind_eq_ok_iff.1 hrest
  refine ⟨_, bind_eq_ok_iff.2 ⟨(), hchecked, bind_eq_ok_iff.2 ⟨t, ht, rfl⟩⟩, ?_⟩
  exact (make_eq_ok hv).2.2.1.symm

/-- What is current is what counts of the latest versions of any status. -/
theorem current_eq_of_make {w : Viewpoint} (hv : make filter l order = .ok v)
    (hw : make (filter.withStatuses .all) l order = .ok w) (hwindows : w.windows = v.windows)
    (h : History) : v.current h = .ofCandidates ((w.latest h).versions.filter fun a =>
      filter.statuses.contains a.stamp.status) := by
  have hwindow : w.window? = v.window? := by
    funext path
    rw [window?, hwindows, window?]
  rw [current, Reference.resolve_eq_latest hv, latest_eq_reference hw, hwindow,
    (make_eq_ok hv).1]

theorem passes_all_iff : v.passes .all a = true ↔
    v.inWindow a.stamp = true ∧ v.filter.modules.allows a.stamp.module = true := by
  rw [passes, StatusSet.contains_all, Bool.and_true, Bool.and_eq_true]

theorem passes_iff : v.passes statuses a = true ↔
    v.passes .all a = true ∧ statuses.contains a.stamp.status = true := by
  rw [passes_all_iff, passes, Bool.and_eq_true, Bool.and_eq_true, and_right_comm]

theorem exists_prevails_of_mem_current (ha : a ∈ (v.current h).versions) :
    ∃ place, v.Prevails .all h a place := by
  have hresolved := (mem_current_iff.1 ha).1
  rw [resolve, Latest.versions_ofCandidates] at hresolved
  exact mem_candidates_iff.1 ((chooseAll_sublist _ _).subset hresolved)

/-- A path on which a version prevails that does not count shows nothing. -/
theorem path_ne_of_mem_current (hb : v.Prevails .all h b place)
    (hstatus : v.filter.statuses.contains b.stamp.status = false)
    (ha : a ∈ (v.current h).versions) : a.stamp.path ≠ b.stamp.path := by
  intro hpath
  obtain ⟨_, hprevails⟩ := exists_prevails_of_mem_current ha
  have hcounts := (mem_current_iff.1 ha).2
  rw [hb.unique hprevails hpath, hstatus] at hcounts
  cases hcounts

theorem mem_visible_of_mem_current (ha : a ∈ (v.current h).versions) : a ∈ v.visible h := by
  obtain ⟨hresolved, hcounts⟩ := mem_current_iff.1 ha
  obtain ⟨hcommitted, hpasses⟩ := List.mem_filter.1 (mem_filter_of_mem_resolve hresolved)
  exact List.mem_filter.2 ⟨hcommitted, passes_iff.2 ⟨hpasses, hcounts⟩⟩

/-- If all that is visible lies on one path, what prevails among it is seen. -/
theorem latest_eq_present (ha : v.Prevails v.filter.statuses h a place)
    (hpath : ∀ c ∈ v.visible h, c.stamp.path = a.stamp.path) : v.latest h = .present a := by
  have hmem : a ∈ v.candidates (v.visible h) := mem_candidates_iff.2 ⟨place, ha⟩
  have hall : ∀ c ∈ v.candidates (v.visible h), c = a := fun c hc =>
    have ⟨_, hprevails⟩ := exists_prevails_of_mem_candidates hc
    ha.unique hprevails (hpath c (mem_of_mem_candidates hc))
  have hsingle : v.candidates (v.visible h) = [a] := by
    have hpaths := (pathsAscend_candidates (v := v) (v.visible h)).path_ne
    match hc : v.candidates (v.visible h) with
    | [] =>
      rw [hc] at hmem
      cases hmem
    | [c] => rw [hall c (hc ▸ List.mem_singleton_self c)]
    | c :: c' :: rest =>
      rw [hc] at hpaths hall
      refine absurd ?_ ((List.pairwise_cons.1 hpaths).1 c' List.mem_cons_self)
      rw [hall c List.mem_cons_self, hall c' (List.mem_cons_of_mem _ List.mem_cons_self)]
  show Latest.ofCandidates (v.chooseAll (v.candidates (v.visible h)) v.tieBreaks.rules) = _
  rw [hsingle]
  -- there is nothing to choose between
  cases v.tieBreaks.rules <;> rfl

/-- What is current are those of the latest versions of any status whose status counts. Each
    of them prevails on its path among the committed versions of any status in their windows
    and in modules that count. So where a version prevails that does not count, nothing is
    current on its path, although the latest version that counts may be one that it beats. -/
theorem current_never_revives (hv : make filter l order = .ok v) :
    (∃ w, make (filter.withStatuses .all) l order = .ok w ∧ ∀ h, v.current h =
      .ofCandidates ((w.latest h).versions.filter fun a =>
        filter.statuses.contains a.stamp.status)) ∧
    (∀ h, ∀ a ∈ (v.current h).versions, filter.statuses.contains a.stamp.status = true ∧
      v.inWindow a.stamp = true ∧ filter.modules.allows a.stamp.module = true ∧
      ∃ place, v.Prevails .all h a place) ∧
    ∀ h b place, v.Prevails .all h b place → filter.statuses.contains b.stamp.status = false →
      (∀ a ∈ (v.current h).versions, a.stamp.path ≠ b.stamp.path) ∧
      (v.visible h ≠ [] → (∀ a ∈ v.visible h, a.stamp.path = b.stamp.path) →
        v.current h = .empty ∧
        ∃ a place', v.latest h = .present a ∧ v.Prevails filter.statuses h a place' ∧
          v.Beats (b, place) (a, place')) := by
  obtain ⟨w, hw, hwindows⟩ := exists_make_withStatuses hv .all
  obtain rfl := (make_eq_ok hv).1
  refine ⟨⟨w, hw, current_eq_of_make hv hw hwindows⟩, fun h a ha => ?_, fun h b place hb hstatus =>
    ⟨fun a => path_ne_of_mem_current hb hstatus, fun hvisible hpath => ⟨?_, ?_⟩⟩⟩
  · obtain ⟨place, hprevails⟩ := exists_prevails_of_mem_current ha
    obtain ⟨hin, hallowed⟩ := passes_all_iff.1 hprevails.passes
    exact ⟨(mem_current_iff.1 ha).2, hin, hallowed, place, hprevails⟩
  · refine Latest.eq_empty_of_versions (List.eq_nil_iff_forall_not_mem.2 fun a ha => ?_)
    exact path_ne_of_mem_current hb hstatus ha (hpath a (mem_visible_of_mem_current ha))
  · obtain ⟨a, ha⟩ := List.exists_mem_of_ne_nil _ (candidates_eq_nil_iff.not.2 hvisible)
    obtain ⟨place', hprevails⟩ := exists_prevails_of_mem_candidates ha
    have hab := hpath a (mem_of_mem_candidates ha)
    obtain ⟨hpasses, hcounts⟩ := passes_iff.1 hprevails.passes
    refine ⟨a, place', latest_eq_present hprevails fun c hc => (hpath c hc).trans hab.symm,
      hprevails, hb.beats hprevails.committed hpasses hab fun hplace => ?_⟩
    -- at one place there would be one version, which both counts and does not
    rw [hplace] at hprevails
    obtain rfl := Option.some.inj (hprevails.committed.symm.trans hb.committed)
    rw [hstatus] at hcounts
    cases hcounts

namespace Fork

/-- A version that retires those before it on the branch 2. -/
def retired : Version :=
  { version ⟨2⟩ ⟨9⟩ ⟨70⟩ with
    stamp := { (version ⟨2⟩ ⟨9⟩ ⟨70⟩).stamp with status := .inactive } }

/-- A version of the trunk, and one on the branch 2 that is retired. The trunk goes on after
    the branch has left it. -/
def retiring : History where
  nid := ⟨5⟩
  shape := .concept
  committed := [version ⟨1⟩ ⟨8⟩ ⟨50⟩, version ⟨2⟩ ⟨8⟩ ⟨60⟩, retired, version ⟨1⟩ ⟨8⟩ ⟨150⟩]

/-- The same without the version of the trunk that the branch has inherited. -/
def retiringAlone : History :=
  { retiring with committed := retiring.committed.tail }

end Fork

open Fork in
/-- Neither the version that was retired nor the one that the branch has inherited is
    current. -/
theorem current_never_revives_on_branch :
    ∃ v, make (.latestOn ⟨2⟩) lineage .standard = .ok v ∧
      v.latest retiring = .present (version ⟨2⟩ ⟨8⟩ ⟨60⟩) ∧ v.current retiring = .empty ∧
      (∃ place, v.Prevails .all retiringAlone retired place) ∧
      v.current retiringAlone = .empty ∧ (v.latest retiringAlone).isEmpty = false := by
  obtain ⟨v, hv, hlatest, hseen, hcandidates⟩ :
      ∃ v, make (.latestOn ⟨2⟩) lineage .standard = .ok v ∧
        v.latest retiring = .present (version ⟨2⟩ ⟨8⟩ ⟨60⟩) ∧
        v.visible retiringAlone = [version ⟨2⟩ ⟨8⟩ ⟨60⟩] ∧
        v.candidates (retiringAlone.committed.filter (v.passes .all)) = [retired] :=
    ⟨_, by cbv, by cbv, by cbv, by cbv⟩
  obtain ⟨⟨w, hw, hcurrent⟩, -, hretired⟩ := current_never_revives hv
  have hall : w.latest retiring = .present retired := by
    obtain ⟨w', hw', hl⟩ : ∃ w', make ((Filter.latestOn ⟨2⟩).withStatuses .all) lineage .standard =
        .ok w' ∧ w'.latest retiring = .present retired := ⟨_, by cbv, by cbv⟩
    rwa [Except.ok.inj (hw.symm.trans hw')]
  have hprevails : ∃ place, v.Prevails .all retiringAlone retired place :=
    mem_candidates_iff.1 (by rw [hcandidates]; exact List.mem_singleton_self _)
  obtain ⟨place, hplace⟩ := id hprevails
  obtain ⟨hnone, a, -, ha, -⟩ := (hretired retiringAlone retired place hplace (by decide)).2
    (by simp [hseen]) (by simp [hseen, version, retired])
  refine ⟨v, hv, hlatest, ?_, hprevails, hnone, ?_⟩
  · rw [hcurrent, hall]
    rfl
  · rw [ha]
    rfl

end Viewpoint

end Bitemporal
