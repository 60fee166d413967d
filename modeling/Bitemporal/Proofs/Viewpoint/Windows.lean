import Bitemporal.Proofs.Lineage.Routes
import Bitemporal.Proofs.Viewpoint.Widening

/-!
# Widest windows

The window on a path is to be the widest one that a route opens (`Lineage.Widest`): every
window is left by some route, and none is wider. This leaves no choice, whichever way the
windows were found (`Widest.get?_eq_some_iff`, `Widest.get?_eq`).

The rounds find the widest windows (`widest_windows`). Nothing but what routes open is ever
opened, since a path that passes its window on does to it what one more step does to a route
(`opened_passRounds`). And after as many rounds as a route has steps, its end is open as far
as the route leaves it (`sees_passRounds`). Where no cycle is met, no route has more steps
than there are rounds.
-/

namespace Bitemporal

/-! ## What windows show -/

namespace Windows

variable {w w' : Windows} {path : Nid} {time : Timestamp}

/-- A path is open as far as a time, or further. -/
def Sees (w : Windows) (path : Nid) (time : Timestamp) : Prop :=
  ∃ seen, w.get? path = some seen ∧ time ≤ seen

instance (w : Windows) (path : Nid) (time : Timestamp) : Decidable (w.Sees path time) :=
  decidable_of_iff (∃ seen ∈ w.get? path, time ≤ seen) (by simp [Sees])

theorem Sees.of_le {time' : Timestamp} (h : w.Sees path time) (hle : time' ≤ time) :
    w.Sees path time' := by
  obtain ⟨seen, hw, hseen⟩ := h
  exact ⟨seen, hw, Std.le_trans hle hseen⟩

theorem Within.sees (h : w.Within w') (hs : w.Sees path time) : w'.Sees path time := by
  obtain ⟨seen, hw, hle⟩ := hs
  obtain ⟨seen', hw', hle'⟩ := h path seen hw
  exact ⟨seen', hw', Std.le_trans hle hle'⟩

end Windows

/-! ## Widest windows -/

namespace Lineage

open Windows (Within)

variable {l l' : Lineage} {positions positions' : List Position} {w w' : Windows} {path : Nid}
  {time : Timestamp}

/-- Every window is left by a route, and as wide as any route leaves it. -/
structure Widest (l : Lineage) (positions : List Position) (w : Windows) : Prop where
  opens : ∀ {path seen}, w.get? path = some seen → l.Opens positions path seen
  sees : ∀ {path time}, l.Opens positions path time → w.Sees path time

theorem Widest.get?_eq_some_iff (h : l.Widest positions w) :
    w.get? path = some time ↔ IsGreatest {t | l.Opens positions path t} time := by
  constructor
  · intro hw
    refine ⟨h.opens hw, fun t ht => ?_⟩
    obtain ⟨seen, hseen, hle⟩ := h.sees ht
    rwa [← Option.some.inj (hw.symm.trans hseen)] at hle
  · rintro ⟨hopens, hgreatest⟩
    obtain ⟨seen, hseen, hle⟩ := h.sees hopens
    rw [hseen, Std.le_antisymm hle (hgreatest (h.opens hseen))]

theorem Widest.get?_eq_none_iff (h : l.Widest positions w) :
    w.get? path = none ↔ ∀ t, ¬l.Opens positions path t := by
  constructor
  · intro hw t ht
    obtain ⟨seen, hseen, -⟩ := h.sees ht
    rw [hw] at hseen
    cases hseen
  · intro hnone
    cases hw : w.get? path with
    | none => rfl
    | some seen => exact absurd (h.opens hw) (hnone seen)

theorem Widest.sees_iff (h : l.Widest positions w) :
    w.Sees path time ↔ ∃ t, l.Opens positions path t ∧ time ≤ t := by
  constructor
  · rintro ⟨seen, hw, hle⟩
    exact ⟨seen, h.opens hw, hle⟩
  · rintro ⟨t, ht, hle⟩
    exact (h.sees ht).of_le hle

/-- Windows that are widest for the same routes to a path are the same on it. -/
theorem Widest.get?_eq_on (h : l.Widest positions w) (h' : l'.Widest positions' w')
    (hsame : ∀ t, l.Opens positions path t ↔ l'.Opens positions' path t) :
    w.get? path = w'.get? path := by
  refine Option.ext fun t => ?_
  rw [h.get?_eq_some_iff, h'.get?_eq_some_iff]
  simp only [hsame]

/-- Windows that are widest for the same routes are the same. -/
theorem Widest.get?_eq (h : l.Widest positions w) (h' : l'.Widest positions' w')
    (hsame : ∀ path t, l.Opens positions path t ↔ l'.Opens positions' path t) (path : Nid) :
    w.get? path = w'.get? path :=
  h.get?_eq_on h' (hsame path)

/-! ## Nothing but routes is opened -/

/-- Every window is left by a route. -/
def Opened (l : Lineage) (positions : List Position) (w : Windows) : Prop :=
  ∀ path seen, w.get? path = some seen → l.Opens positions path seen

theorem Opened.widen (h : l.Opened positions w) (ho : l.Opens positions path time) :
    l.Opened positions (w.widen path time) := by
  intro other seen hseen
  rcases Windows.get?_of_get?_widen hseen with hw | ⟨rfl, rfl⟩
  · exact h other seen hw
  · exact ho

theorem opened_ofPositions (l : Lineage) (positions : List Position) :
    l.Opened positions (Windows.ofPositions positions) := by
  have hempty : l.Opened positions .empty := by
    intro path seen h
    simp at h
  exact List.foldlRecOn positions _ hempty fun w hw p hp => hw.widen (opens_position hp)

theorem Opened.passOn (h : l.Opened positions w) :
    l.Opened positions (passOn w path (l.originsOf path)) := by
  rw [Lineage.passOn]
  split
  · exact h
  · next time hw =>
    exact List.foldlRecOn _ _ h fun w hw' o ho => hw'.widen ((h path time hw).origin ho)

theorem Opened.passAll (h : l.Opened positions w) (hl : l.DeclaredOnce) :
    l.Opened positions (l.passAll w) := by
  refine List.foldlRecOn l.origins.entries _ h fun w hw (path, origins) hentry => ?_
  rw [← hl.originsOf_eq hentry]
  exact hw.passOn

theorem opened_passRounds (hl : l.DeclaredOnce) (n : Nat) (h : l.Opened positions w) :
    l.Opened positions (l.passRounds n w) := by
  induction n generalizing w with
  | zero => exact h
  | succ n ih => exact ih (h.passAll hl)

/-! ## Every route is followed -/

theorem within_passAll (l : Lineage) (w : Windows) : w.Within (l.passAll w) :=
  Windows.within_foldl (fun w (path, origins) => within_passOn w path origins) _ w

theorem within_passRounds (l : Lineage) (n : Nat) (w : Windows) :
    w.Within (l.passRounds n w) := by
  induction n generalizing w with
  | zero => exact .refl w
  | succ n ih => exact (within_passAll l w).trans (ih _)

theorem passRounds_succ (l : Lineage) (n : Nat) (w : Windows) :
    l.passRounds (n + 1) w = l.passAll (l.passRounds n w) := by
  induction n generalizing w with
  | zero => rfl
  | succ n ih => exact ih _

/-- A path that is open passes its window on to each of its origins. -/
theorem sees_passOn {origins : List Origin} {o : Origin} (h : w.Sees path time)
    (ho : o ∈ origins) : (passOn w path origins).Sees o.path (min time o.time) := by
  obtain ⟨seen, hw, hle⟩ := h
  obtain ⟨before, after, rfl⟩ := List.append_of_mem ho
  rw [passOn, hw]
  simp only [List.foldl_append, List.foldl_cons]
  -- the origin is opened in its turn, and what is opened later does not narrow it
  refine Within.sees (Windows.within_foldl (fun w o => Windows.within_widen w o.path _) after _) ?_
  refine Windows.Sees.of_le (Windows.exists_le_get?_widen ..) ?_
  exact Timestamp.min_le_min_right hle o.time

theorem sees_passAll {o : Origin} (h : w.Sees path time) (ho : o ∈ l.originsOf path) :
    (l.passAll w).Sees o.path (min time o.time) := by
  obtain ⟨before, after, hentries⟩ := List.append_of_mem (mem_entries_of_mem_originsOf ho)
  rw [passAll, hentries, List.foldl_append, List.foldl_cons]
  have hstep (w : Windows) (e : Nid × List Origin) : w.Within (passOn w e.1 e.2) :=
    within_passOn w e.1 e.2
  refine (Windows.within_foldl hstep after _).sees (sees_passOn ?_ ho)
  exact (Windows.within_foldl hstep before w).sees h

/-- As many rounds as a route has steps open its end as far as it leaves it. -/
theorem sees_passRounds {start other : Nid} {route : List Origin} {n : Nat}
    (h : w.Sees start time) (hr : l.Route start route other) (hn : route.length ≤ n) :
    (l.passRounds n w).Sees other (alongRoute time route) := by
  induction hr generalizing n with
  | refl => exact (within_passRounds l n w).sees h
  | @step route other o hr ho ih =>
    rw [List.length_append, List.length_singleton] at hn
    obtain ⟨m, rfl⟩ := Nat.exists_eq_add_of_lt hn
    rw [alongRoute_concat, passRounds_succ]
    exact sees_passAll (ih (Nat.le_add_right ..)) ho

/-! ## Rounds -/

/-- As many rounds as there are declared paths find the widest windows, if the positions lead
    to no cycle. -/
theorem widest_windows (hl : l.DeclaredOnce)
    (hpositions : ∀ p ∈ positions, ¬l.LeadsToCycle p.path) :
    l.Widest positions (l.windows positions) where
  opens := opened_passRounds hl l.size (opened_ofPositions l positions) _ _
  sees := by
    rintro path _ ⟨p, hp, route, hr, rfl⟩
    exact sees_passRounds (Windows.exists_le_get?_ofPositions hp) hr
      (hr.length_le (hpositions p hp))

end Lineage

end Bitemporal
