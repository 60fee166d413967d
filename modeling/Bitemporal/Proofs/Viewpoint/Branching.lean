import Bitemporal.Proofs.Viewpoint.Flattening
import Bitemporal.Proofs.Viewpoint.Reference

/-!
# Branching

A path that has just been branched off another one shows what the other one shows, up to the
time at which it left (`branching_transparent`). Except for the branch itself the windows are
the same: each route from the branch starts with the step to its only origin, which passes the
window on that the reader on the origin has (`opens_branch_iff`).

What a viewpoint answers depends on its positions through the windows alone, and only through
those on the paths of the versions that it is asked about (`answers_congr`). The ancestors that
it keeps do not show in the answers: as a selection, they ask the lineage itself which path
inherits from which. So a path without versions does not matter, although it has a window and
inherits from the others.
-/

namespace Bitemporal

/-- The same filter for a reader who stands on one path. -/
def Filter.standingOn (f : Filter) (path : Nid) (time : Timestamp) : Filter :=
  { f with
    positions := [⟨path, time⟩]
    positions_ne_nil := by simp
    nodup_paths := by simp }

/-- The window of the only origin is what opens all paths but the branch itself. -/
theorem Lineage.opens_branch_iff {l : Lineage} {p : Position} {o : Origin} {path : Nid}
    {time : Timestamp} (horigins : l.originsOf p.path = [o]) (hpath : path ≠ p.path) :
    l.Opens [p] path time ↔ l.Opens [⟨o.path, min p.time o.time⟩] path time := by
  rw [opens_singleton_iff, horigins]
  simp [hpath]

/-- The only origin of a path that leads to no cycle leads to none either. -/
theorem Lineage.not_leadsToCycle_origin {l : Lineage} {path : Nid} {o : Origin}
    (horigins : l.originsOf path = [o]) (hcycle : ¬l.LeadsToCycle path) :
    ¬l.LeadsToCycle o.path :=
  fun hleads => hcycle (hleads.of_reached (.single ⟨o, by simp [horigins], rfl⟩))

/-- The selection depends on the windows on the paths of the history, and on the statuses and
    modules that count. -/
theorem Reference.latest_congr {f g : Filter} {l : Lineage}
    {window? window'? : Nid → Option Timestamp} {order : TieBreakOrder} {h : History}
    (hstatuses : f.statuses = g.statuses) (hmodules : f.modules = g.modules)
    (hwindows : ∀ a ∈ h.committed, window? a.stamp.path = window'? a.stamp.path) :
    latest f l window? order h = latest g l window'? order h := by
  have hcounted : counted f window? h = counted g window'? h := by
    refine List.filter_congr fun a ha => ?_
    have hcommitted := List.mem_of_getElem? (List.mem_zipIdx_iff_getElem?.1 ha)
    rw [decide_eq_decide, Counts, Counts, hwindows a.1 hcommitted, hstatuses, hmodules]
  obtain ⟨⟩ := f
  obtain ⟨⟩ := g
  subst hmodules
  rw [latest, latest, hcounted]
  rfl

namespace Viewpoint

variable {f g : Filter} {l : Lineage} {order : TieBreakOrder} {v w : Viewpoint} {h : History}

/-- Viewpoints on one lineage for which the same statuses and modules count give the same
    answers on a history if they have the same windows on its paths. -/
theorem answers_congr (hv : make f l order = .ok v) (hw : make g l order = .ok w)
    (hstatuses : f.statuses = g.statuses) (hmodules : f.modules = g.modules)
    (hwindows : ∀ a ∈ h.committed, v.window? a.stamp.path = w.window? a.stamp.path) :
    v.visible h = w.visible h ∧ v.latest h = w.latest h ∧ v.current h = w.current h := by
  obtain rfl := (make_eq_ok hv).1
  obtain rfl := (make_eq_ok hw).1
  have hresolve (statuses : StatusSet) : v.resolve statuses h = w.resolve statuses h := by
    rw [Reference.resolve_eq_latest hv, Reference.resolve_eq_latest hw]
    exact Reference.latest_congr rfl hmodules hwindows
  refine ⟨List.filter_congr fun a ha => ?_, ?_, ?_⟩
  · simp only [passes, inWindow, hwindows a ha, hstatuses, hmodules]
  · rw [latest, latest, hstatuses, hresolve]
  · rw [current, current, hstatuses, hresolve]

theorem exists_standingOn (hl : l.DeclaredOnce) {path : Nid} (hpath : ¬l.LeadsToCycle path)
    (f : Filter) (order : TieBreakOrder) (time : Timestamp) :
    ∃ v, make (f.standingOn path time) l order = .ok v :=
  (exists_make_iff hl).2 (List.forall_mem_singleton.2 hpath)

/-- The windows of a reader on a branch are those of a reader on its origin, but for the branch
    itself. -/
theorem window?_off_branch (hl : l.DeclaredOnce) {branch path : Nid} {o : Origin}
    {time : Timestamp} (horigins : l.originsOf branch = [o])
    (hv : make (f.standingOn branch time) l order = .ok v)
    (hw : make (f.standingOn o.path (min time o.time)) l order = .ok w) (hpath : path ≠ branch) :
    v.window? path = w.window? path :=
  (widest_of_make hl hv).get?_eq_on (widest_of_make hl hw) fun _ =>
    Lineage.opens_branch_iff horigins hpath

/-- A path with one origin shows what its origin shows up to the time at which the path left
    it, as long as nothing is committed on the path itself: the same versions are visible, and
    the latest and the current ones are the same. All other paths have the same windows. -/
theorem branching_transparent (hl : l.DeclaredOnce) {branch : Nid} {o : Origin}
    (horigins : l.originsOf branch = [o]) (hcycle : ¬l.LeadsToCycle branch) (f : Filter)
    (order : TieBreakOrder) (time : Timestamp) :
    ∃ v w, make (f.standingOn branch time) l order = .ok v ∧
      make (f.standingOn o.path (min time o.time)) l order = .ok w ∧
      (∀ path, path ≠ branch → v.window? path = w.window? path) ∧
      ∀ h : History, (∀ a ∈ h.committed, a.stamp.path ≠ branch) →
        v.visible h = w.visible h ∧ v.latest h = w.latest h ∧ v.current h = w.current h := by
  have horigin := Lineage.not_leadsToCycle_origin horigins hcycle
  obtain ⟨v, hv⟩ := exists_standingOn hl hcycle f order time
  obtain ⟨w, hw⟩ := exists_standingOn hl horigin f order (min time o.time)
  have hwindows (path : Nid) (hpath : path ≠ branch) : v.window? path = w.window? path :=
    window?_off_branch hl horigins hv hw hpath
  exact ⟨v, w, hv, hw, hwindows, fun h hcommitted =>
    answers_congr hv hw rfl rfl fun a ha => hwindows _ (hcommitted a ha)⟩

/-- The path 5 is branched off the path 4, which inherits from the path 1 in two ways. -/
def branchedDiamond : Lineage :=
  ⟨⟨(⟨5⟩, [⟨⟨4⟩, ⟨50⟩⟩]) :: diamond.origins.entries⟩⟩

/-- Versions on the paths that the branch sees. That on the path 4 was made after the branch
    had left it. -/
def onOrigins : History where
  nid := ⟨5⟩
  shape := .concept
  committed := [Fork.version ⟨1⟩ ⟨8⟩ ⟨15⟩, Fork.version ⟨3⟩ ⟨8⟩ ⟨35⟩, Fork.version ⟨2⟩ ⟨8⟩ ⟨25⟩,
    Fork.version ⟨4⟩ ⟨8⟩ ⟨60⟩]

theorem branching_transparent_on_diamond :
    branchedDiamond.DeclaredOnce ∧ branchedDiamond.originsOf ⟨5⟩ = [⟨⟨4⟩, ⟨50⟩⟩] ∧
      ¬branchedDiamond.LeadsToCycle ⟨5⟩ ∧ (∀ a ∈ onOrigins.committed, a.stamp.path ≠ ⟨5⟩) ∧
      ∃ v w, make (onDiamond.standingOn ⟨5⟩ ⟨100⟩) branchedDiamond .standard = .ok v ∧
        make (onDiamond.standingOn ⟨4⟩ ⟨50⟩) branchedDiamond .standard = .ok w ∧
        v.latest onOrigins =
          .contradiction (Fork.version ⟨2⟩ ⟨8⟩ ⟨25⟩) (Fork.version ⟨3⟩ ⟨8⟩ ⟨35⟩) [] ∧
        w.latest onOrigins = v.latest onOrigins := by
  have hl : branchedDiamond.DeclaredOnce := (by decide : branchedDiamond.origins.keys.Nodup)
  have horigins : branchedDiamond.originsOf ⟨5⟩ = [⟨⟨4⟩, ⟨50⟩⟩] := by cbv
  have hcycle : ¬branchedDiamond.LeadsToCycle ⟨5⟩ := Lineage.checkFrom_eq_ok_iff.1 (by cbv)
  have hcommitted : ∀ a ∈ onOrigins.committed, a.stamp.path ≠ ⟨5⟩ := by decide
  obtain ⟨v, w, hv, hw, -, hsame⟩ :=
    branching_transparent hl horigins hcycle onDiamond .standard ⟨100⟩
  have hseen : ∃ v, make (onDiamond.standingOn ⟨5⟩ ⟨100⟩) branchedDiamond .standard = .ok v ∧
      v.latest onOrigins =
        .contradiction (Fork.version ⟨2⟩ ⟨8⟩ ⟨25⟩) (Fork.version ⟨3⟩ ⟨8⟩ ⟨35⟩) [] :=
    ⟨_, by cbv, by cbv⟩
  obtain ⟨v', hv', hlatest⟩ := hseen
  obtain rfl := Except.ok.inj (hv.symm.trans hv')
  exact ⟨hl, horigins, hcycle, hcommitted, v, w, hv, hw, hlatest, (hsame _ hcommitted).2.1.symm⟩

end Viewpoint

end Bitemporal
