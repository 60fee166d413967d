import Bitemporal.Proofs.Timestamp
import Bitemporal.Proofs.Viewpoint.Making
import Mathlib

/-!
# Viewpoints that see more

A filter asks for less than another one if every status and every module that counts for
it counts for the other one too, and if the reader of the other one stands on each of its
paths, as far along or further (`Filter.Narrower`). On the same lineage the other filter
then sees whatever the first one sees.

For the windows this has to be carried along the chains of origins. Windows are *within*
others if each path that is open is open in the others, as far or further
(`Windows.Within`). Opening a path further keeps them so (`Within.widen`), and hence so does
whatever is made of it: passing the window of one path on, a round over all paths, and all
the rounds (`passOn_within_passOn`, `passAll_within_passAll`, `passRounds_within_passRounds`,
`windows_within_windows`).
-/

namespace Bitemporal

theorem Timestamp.min_le_min_right {a b : Timestamp} (h : a ≤ b) (c : Timestamp) :
    min a c ≤ min b c := by
  show (if a ≤ c then a else c) ≤ if b ≤ c then b else c
  rw [le_iff] at h
  split <;> split <;> simp only [le_iff] at * <;> omega

/-! ## Windows -/

namespace Windows

variable {w w' w'' : Windows} {path : Nid} {time time' : Timestamp}

/-- Each path that is open is open in other windows, as far or further. -/
def Within (w w' : Windows) : Prop :=
  ∀ path seen, w.get? path = some seen → ∃ seen', w'.get? path = some seen' ∧ seen ≤ seen'

theorem Within.refl (w : Windows) : w.Within w :=
  fun _ seen h => ⟨seen, h, Std.le_refl seen⟩

theorem Within.trans (h : w.Within w') (h' : w'.Within w'') : w.Within w'' := by
  intro path seen hw
  obtain ⟨seen', hw', hle⟩ := h path seen hw
  obtain ⟨seen'', hw'', hle'⟩ := h' path seen' hw'
  exact ⟨seen'', hw'', Std.le_trans hle hle'⟩

theorem within_empty (w : Windows) : Within .empty w :=
  fun path _ h => absurd h (by simp)

/-- A path that is opened is open as far as was asked, or further. -/
theorem exists_le_get?_widen (w : Windows) (path : Nid) (time : Timestamp) :
    ∃ seen, (w.widen path time).get? path = some seen ∧ time ≤ seen := by
  rw [widen]
  split
  · next seen hw =>
    split
    · next hle => exact ⟨seen, hw, hle⟩
    · exact ⟨time, Table.get?_insert_self .., Std.le_refl time⟩
  · exact ⟨time, Table.get?_insert_self .., Std.le_refl time⟩

/-- Opening a path narrows no window. -/
theorem within_widen (w : Windows) (path : Nid) (time : Timestamp) :
    w.Within (w.widen path time) := by
  intro other seen hw
  by_cases hpath : path = other
  · subst hpath
    rw [widen, hw]
    dsimp only
    split
    · exact ⟨seen, hw, Std.le_refl seen⟩
    · next hle => exact ⟨time, Table.get?_insert_self .., Std.le_of_lt (Std.not_le.1 hle)⟩
  · refine ⟨seen, ?_, Std.le_refl seen⟩
    rw [widen]
    split
    · split
      · exact hw
      · rw [Table.get?_insert_of_ne _ _ hpath, hw]
    · rw [Table.get?_insert_of_ne _ _ hpath, hw]

/-- Opening a path opens that path only, and not further than was asked. -/
theorem get?_of_get?_widen {other : Nid} {seen : Timestamp}
    (h : (w.widen path time).get? other = some seen) :
    w.get? other = some seen ∨ other = path ∧ seen = time := by
  have hinserted (hi : (w.insert path time).get? other = some seen) :
      w.get? other = some seen ∨ other = path ∧ seen = time := by
    rw [Table.get?_insert] at hi
    split at hi
    · next hpath => exact .inr ⟨hpath.symm, (Option.some.inj hi).symm⟩
    · exact .inl hi
  rw [widen] at h
  split at h
  · split at h
    · exact .inl h
    · exact hinserted h
  · exact hinserted h

theorem Within.widen (h : w.Within w') (ht : time ≤ time') :
    (w.widen path time).Within (w'.widen path time') := by
  intro other seen hseen
  rcases get?_of_get?_widen hseen with hw | ⟨rfl, rfl⟩
  · exact (h.trans (within_widen w' path time')) other seen hw
  · obtain ⟨seen', hw', hle⟩ := exists_le_get?_widen w' other time'
    exact ⟨seen', hw', Std.le_trans ht hle⟩

/-! ### Folds -/

variable {α : Type}

/-- Steps that narrow no window narrow none together. -/
theorem within_foldl {step : Windows → α → Windows}
    (hstep : ∀ (w : Windows) a, w.Within (step w a)) (l : List α) (w : Windows) :
    w.Within (l.foldl step w) := by
  induction l generalizing w with
  | nil => exact .refl w
  | cons a rest ih => exact (hstep w a).trans (ih _)

/-- Windows that each step keeps within others stay within them. -/
theorem Within.foldl {step step' : Windows → α → Windows}
    (hstep : ∀ {w w' : Windows} a, w.Within w' → (step w a).Within (step' w' a))
    (h : w.Within w') (l : List α) : Within (l.foldl step w) (l.foldl step' w') := by
  induction l generalizing w w' with
  | nil => exact h
  | cons a rest ih => exact ih (hstep a h)

/-! ### Positions -/

/-- Who stands on a path sees it as far as that, or further. -/
theorem exists_le_get?_ofPositions {positions : List Position} {p : Position}
    (hp : p ∈ positions) :
    ∃ seen, (ofPositions positions).get? p.path = some seen ∧ p.time ≤ seen := by
  obtain ⟨before, after, rfl⟩ := List.append_of_mem hp
  rw [ofPositions, List.foldl_append, List.foldl_cons]
  -- the window is opened by the position, and what is opened later does not narrow it
  obtain ⟨seen, hw, hle⟩ := exists_le_get?_widen
    (before.foldl (fun w p => widen w p.path p.time) .empty) p.path p.time
  obtain ⟨seen', hw', hle'⟩ := within_foldl (fun w q => within_widen w q.path q.time) after _
    p.path seen hw
  exact ⟨seen', hw', Std.le_trans hle hle'⟩

/-- Positions open no more than each of them opens. -/
theorem foldl_widen_within {positions : List Position} (hw : w.Within w')
    (hp : ∀ p ∈ positions, ∃ seen, w'.get? p.path = some seen ∧ p.time ≤ seen) :
    Within (positions.foldl (fun w p => w.widen p.path p.time) w) w' := by
  induction positions generalizing w with
  | nil => exact hw
  | cons p rest ih =>
    refine ih (fun other seen hseen => ?_) fun q hq => hp q (List.mem_cons_of_mem _ hq)
    rcases get?_of_get?_widen hseen with hseen | ⟨rfl, rfl⟩
    · exact hw other seen hseen
    · exact hp p List.mem_cons_self

/-- Who stands on the same paths, as far along or further, sees as much at least. -/
theorem within_ofPositions {positions positions' : List Position}
    (h : ∀ p ∈ positions, ∃ q ∈ positions', q.path = p.path ∧ p.time ≤ q.time) :
    (ofPositions positions).Within (ofPositions positions') := by
  refine foldl_widen_within (within_empty _) fun p hp => ?_
  obtain ⟨q, hq, hpath, hle⟩ := h p hp
  obtain ⟨seen, hw, hle'⟩ := exists_le_get?_ofPositions hq
  exact ⟨seen, hpath ▸ hw, Std.le_trans hle hle'⟩

end Windows

/-! ## Rounds -/

namespace Lineage

open Windows (Within)

variable {w w' : Windows}

theorem within_passOn (w : Windows) (path : Nid) (origins : List Origin) :
    w.Within (passOn w path origins) := by
  rw [passOn]
  split
  · exact .refl w
  · exact Windows.within_foldl (fun w o => Windows.within_widen w o.path _) origins w

/-- The wider the window of a path is, the wider are those that it passes on. -/
theorem passOn_within_passOn (h : w.Within w') (path : Nid) (origins : List Origin) :
    (passOn w path origins).Within (passOn w' path origins) := by
  cases hw : w.get? path with
  | none =>
    rw [passOn, hw]
    exact h.trans (within_passOn w' path origins)
  | some time =>
    obtain ⟨time', hw', hle⟩ := h path time hw
    rw [passOn, passOn, hw, hw']
    refine Within.foldl (fun o h => ?_) h origins
    exact h.widen (Timestamp.min_le_min_right hle o.time)

theorem passAll_within_passAll (l : Lineage) (h : w.Within w') :
    (l.passAll w).Within (l.passAll w') :=
  h.foldl (fun (path, origins) hw => passOn_within_passOn hw path origins) l.origins.entries

theorem passRounds_within_passRounds (l : Lineage) (n : Nat) (h : w.Within w') :
    (l.passRounds n w).Within (l.passRounds n w') := by
  induction n generalizing w w' with
  | zero => exact h
  | succ n ih => exact ih (l.passAll_within_passAll h)

/-- Who stands on the same paths, as far along or further, sees as much of their origins at
    least. -/
theorem windows_within_windows (l : Lineage) {positions positions' : List Position}
    (h : ∀ p ∈ positions, ∃ q ∈ positions', q.path = p.path ∧ p.time ≤ q.time) :
    (l.windows positions).Within (l.windows positions') :=
  l.passRounds_within_passRounds l.size (Windows.within_ofPositions h)

end Lineage

/-! ## Viewpoints -/

/-- A filter asks for less than another one: what counts for it counts for the other one
    too, and on each of its paths the other one stands as far along, or further. -/
structure Filter.Narrower (f g : Filter) : Prop where
  statuses : ∀ status, f.statuses.contains status = true → g.statuses.contains status = true
  modules : ∀ module, f.modules.allows module = true → g.modules.allows module = true
  positions : ∀ p ∈ f.positions, ∃ q ∈ g.positions, q.path = p.path ∧ p.time ≤ q.time

namespace Viewpoint

variable {f g : Filter} {l : Lineage} {order order' : TieBreakOrder} {v w : Viewpoint}

theorem windows_within (hv : make f l order = .ok v) (hw : make g l order' = .ok w)
    (hfg : f.Narrower g) : v.windows.Within w.windows := by
  rw [(make_eq_ok hv).2.2.1, (make_eq_ok hw).2.2.1]
  exact l.windows_within_windows hfg.positions

theorem inWindow_mono (h : v.windows.Within w.windows) {stamp : Stamp}
    (hin : v.inWindow stamp = true) : w.inWindow stamp = true := by
  rw [inWindow, Bool.and_eq_true] at hin ⊢
  refine ⟨hin.1, ?_⟩
  cases hv : v.window? stamp.path with
  | none => simp [hv] at hin
  | some seen =>
    obtain ⟨seen', hw, hle⟩ := h stamp.path seen hv
    have hseen : stamp.time ≤ seen := by simpa [hv] using hin.2
    rw [window?, hw]
    exact decide_eq_true (Std.le_trans hseen hle)

/-- Put on the same lineage, a filter that asks for less has no wider window on any path,
    and sees some of the versions that the other one sees, in the same order. -/
theorem visible_sublist_of_narrower (hv : make f l order = .ok v) (hw : make g l order' = .ok w)
    (hfg : f.Narrower g) :
    (∀ path seen, v.window? path = some seen → ∃ seen', w.window? path = some seen' ∧
      seen ≤ seen') ∧
    ∀ h : History, (v.visible h).Sublist (w.visible h) := by
  have hwithin := windows_within hv hw hfg
  refine ⟨hwithin, fun h => List.monotone_filter_right _ fun a ha => ?_⟩
  rw [passes, Bool.and_eq_true, Bool.and_eq_true, (make_eq_ok hv).1] at ha
  rw [passes, Bool.and_eq_true, Bool.and_eq_true, (make_eq_ok hw).1]
  obtain ⟨⟨hin, hstatus⟩, hmodule⟩ := ha
  exact ⟨⟨inWindow_mono hwithin hin, hfg.statuses _ hstatus⟩, hfg.modules _ hmodule⟩

/-- The start of one branch, in the preferred module only. -/
def branchStart : Filter where
  statuses := .active
  positions := [⟨⟨3⟩, ⟨90⟩⟩]
  modules := .prioritized [⟨8⟩]
  languages := []
  positions_ne_nil := by simp
  nodup_paths := by decide

open Fork in
theorem visible_sublist_of_narrower_on_fork :
    ∃ v w, make branchStart lineage .standard = .ok v ∧
      make bothBranches lineage .standard = .ok w ∧ branchStart.Narrower bothBranches ∧
      v.window? ⟨1⟩ = some ⟨90⟩ ∧ (∃ seen, w.window? ⟨1⟩ = some seen ∧ ⟨90⟩ ≤ seen) ∧
      (v.visible history).length = 1 ∧ (w.visible history).length = 5 ∧
      (v.visible history).Sublist (w.visible history) := by
  obtain ⟨v, hv, hseen, hone⟩ : ∃ v, make branchStart lineage .standard = .ok v ∧
      v.window? ⟨1⟩ = some ⟨90⟩ ∧ (v.visible history).length = 1 := ⟨_, by cbv, by cbv, by cbv⟩
  obtain ⟨w, hw, hfive⟩ : ∃ w, make bothBranches lineage .standard = .ok w ∧
      (w.visible history).length = 5 := ⟨_, by cbv, by cbv⟩
  have hnarrower : branchStart.Narrower bothBranches := by
    refine ⟨fun _ h => h, fun module h => ?_, ?_⟩
    · simp only [branchStart, bothBranches, ModuleFilter.allows, List.contains_cons,
        Bool.or_eq_true] at h ⊢
      exact .inl (h.resolve_right (by simp))
    · simp only [branchStart, List.mem_singleton, forall_eq]
      exact ⟨⟨⟨3⟩, ⟨200⟩⟩, by simp [bothBranches], rfl, by decide⟩
  obtain ⟨hwindows, hvisible⟩ := visible_sublist_of_narrower hv hw hnarrower
  exact ⟨v, w, hv, hw, hnarrower, hseen, hwindows _ _ hseen, hone, hfive, hvisible history⟩

end Viewpoint

end Bitemporal
