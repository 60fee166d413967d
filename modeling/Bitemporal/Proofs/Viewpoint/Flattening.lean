import Bitemporal.Proofs.Viewpoint.Cycles

/-!
# Windows one after the other

Instead of in rounds, windows can be opened one after the other, by a walk with a stack
(`Lineage.flatten`). What is on top is dropped if it is seen already; otherwise it is opened,
and what its origins inherit from it goes on the stack. So a path is opened again whenever a
wider window for it comes up.

The walk ends on every lineage, cycles included: each window that it opens is one of finitely
many that were not seen before (`unseen_opened`). When it ends, what routes open is seen,
since at every moment what an open path passes on is seen or still on the stack
(`Pending`), and nothing else is seen. So it finds the same windows as the rounds do, and
these are the widest (`window?_widest`).
-/

namespace Bitemporal

namespace Lineage

open Windows (Within)

variable {l : Lineage} {positions stack : List Position} {w : Windows} {path : Nid}
  {time : Timestamp} {p : Position}

/-! ## The walk -/

/-- What the origins of a path inherit of a window on it, the last origin first. -/
def passed (l : Lineage) (p : Position) : List Position :=
  ((l.originsOf p.path).map fun o => ⟨o.path, min p.time o.time⟩).reverse

theorem mem_passed_iff {q : Position} :
    q ∈ l.passed p ↔ ∃ o ∈ l.originsOf p.path, ⟨o.path, min p.time o.time⟩ = q := by
  rw [passed, List.mem_reverse, List.mem_map]

/-- All declared origins. -/
def declared (l : Lineage) : List Origin :=
  l.origins.entries.flatMap Prod.snd

/-- The paths for which a window may come up: those of a stack and of all origins. -/
def pathsAhead (l : Lineage) (stack : List Position) : List Nid :=
  stack.map Position.path ++ l.declared.map Origin.path

/-- The times that a window may have that comes up. -/
def timesAhead (l : Lineage) (stack : List Position) : List Timestamp :=
  stack.map Position.time ++ l.declared.map Origin.time

/-- The windows that may come up and are not seen. -/
def unseen (l : Lineage) (w : Windows) (stack : List Position) : Finset (Nid × Timestamp) :=
  ((l.pathsAhead stack).toFinset ×ˢ (l.timesAhead stack).toFinset).filter
    fun (path, time) => ¬w.Sees path time

theorem mem_pathsAhead_iff : path ∈ l.pathsAhead stack ↔
    (∃ q ∈ stack, q.path = path) ∨ ∃ o ∈ l.declared, o.path = path := by
  simp [pathsAhead]

theorem mem_timesAhead_iff : time ∈ l.timesAhead stack ↔
    (∃ q ∈ stack, q.time = time) ∨ ∃ o ∈ l.declared, o.time = time := by
  simp [timesAhead]

theorem mem_unseen_iff : (path, time) ∈ l.unseen w stack ↔
    path ∈ l.pathsAhead stack ∧ time ∈ l.timesAhead stack ∧ ¬w.Sees path time := by
  simp [unseen, and_assoc]

theorem mem_declared {o : Origin} (ho : o ∈ l.originsOf path) : o ∈ l.declared :=
  List.mem_flatMap.2 ⟨_, mem_entries_of_mem_originsOf ho, ho⟩

theorem sees_insert (w : Windows) (p : Position) :
    Windows.Sees (w.insert p.path p.time) p.path p.time :=
  ⟨p.time, Table.get?_insert_self .., Std.le_refl p.time⟩

/-- A path that is not seen as far is opened by an entry. -/
theorem widen_of_not_sees (h : ¬w.Sees path time) : w.widen path time = w.insert path time := by
  rw [Windows.widen]
  split
  · next seen hw => exact if_neg fun hle => h ⟨seen, hw, hle⟩
  · rfl

theorem within_insert (h : ¬w.Sees path time) : w.Within (w.insert path time) := by
  rw [← widen_of_not_sees h]
  exact Windows.within_widen w path time

theorem pathsAhead_passed : l.pathsAhead (l.passed p ++ stack) ⊆ l.pathsAhead (p :: stack) := by
  intro path hpath
  rw [mem_pathsAhead_iff] at hpath ⊢
  refine hpath.elim ?_ .inr
  rintro ⟨q, hq, rfl⟩
  rcases List.mem_append.1 hq with hq | hq
  · obtain ⟨o, ho, rfl⟩ := mem_passed_iff.1 hq
    exact .inr ⟨o, mem_declared ho, rfl⟩
  · exact .inl ⟨q, List.mem_cons_of_mem _ hq, rfl⟩

theorem timesAhead_passed : l.timesAhead (l.passed p ++ stack) ⊆ l.timesAhead (p :: stack) := by
  intro time htime
  rw [mem_timesAhead_iff] at htime ⊢
  refine htime.elim ?_ .inr
  rintro ⟨q, hq, rfl⟩
  rcases List.mem_append.1 hq with hq | hq
  · -- the earlier of two times is one of them
    obtain ⟨o, ho, rfl⟩ := mem_passed_iff.1 hq
    rcases Std.min_eq_or (a := p.time) (b := o.time) with hmin | hmin
    · exact .inl ⟨p, List.mem_cons_self, hmin.symm⟩
    · exact .inr ⟨o, mem_declared ho, hmin.symm⟩
  · exact .inl ⟨q, List.mem_cons_of_mem _ hq, rfl⟩

/-- What is dropped from the stack brings no window into question. -/
theorem unseen_dropped : l.unseen w stack ⊆ l.unseen w (p :: stack) := by
  rintro ⟨path, time⟩ hmem
  obtain ⟨hpath, htime, hunseen⟩ := mem_unseen_iff.1 hmem
  exact mem_unseen_iff.2
    ⟨List.mem_cons_of_mem _ hpath, List.mem_cons_of_mem _ htime, hunseen⟩

/-- A window that is opened was not seen before, and no window comes into question that did
    not before. -/
theorem unseen_opened (h : ¬w.Sees p.path p.time) :
    l.unseen (w.insert p.path p.time) (l.passed p ++ stack) ⊂ l.unseen w (p :: stack) := by
  refine Finset.ssubset_iff_of_subset ?_ |>.2 ⟨(p.path, p.time), ?_, ?_⟩
  · rintro ⟨path, time⟩ hmem
    obtain ⟨hpath, htime, hunseen⟩ := mem_unseen_iff.1 hmem
    exact mem_unseen_iff.2 ⟨pathsAhead_passed hpath, timesAhead_passed htime,
      fun hs => hunseen ((within_insert h).sees hs)⟩
  · exact mem_unseen_iff.2 ⟨List.mem_cons_self, List.mem_cons_self, h⟩
  · exact fun hmem => (mem_unseen_iff.1 hmem).2.2 (sees_insert w p)

/-- Opens what is on a stack, and all that is inherited from it. -/
def flattenFrom (l : Lineage) (w : Windows) : List Position → Windows
  | [] => w
  | p :: stack =>
    if w.Sees p.path p.time then l.flattenFrom w stack
    else l.flattenFrom (w.insert p.path p.time) (l.passed p ++ stack)
termination_by stack => ((l.unseen w stack).card, stack.length)
decreasing_by
  · rcases (Finset.card_le_card (unseen_dropped (l := l) (p := p))).lt_or_eq with lt | eq
    · exact .left _ _ lt
    · rw [eq]
      exact .right _ (by simp)
  · rename_i h
    exact .left _ _ (Finset.card_lt_card (unseen_opened h))

/-- The windows of a reader who stands at the given positions, the last of which is opened
    first. -/
def flatten (l : Lineage) (positions : List Position) : Windows :=
  l.flattenFrom .empty positions.reverse

/-! ## What the walk opens -/

/-- Nothing but what routes open is opened. -/
theorem opened_flattenFrom (hw : l.Opened positions w)
    (hstack : ∀ p ∈ stack, l.Opens positions p.path p.time) :
    l.Opened positions (l.flattenFrom w stack) := by
  fun_induction flattenFrom l w stack with
  | case1 w => exact hw
  | case2 w p stack hs ih => exact ih hw fun q hq => hstack q (List.mem_cons_of_mem _ hq)
  | case3 w p stack hs ih =>
    have hp := hstack p List.mem_cons_self
    refine ih ?_ fun q hq => ?_
    · rw [← widen_of_not_sees hs]
      exact hw.widen hp
    · rcases List.mem_append.1 hq with hq | hq
      · obtain ⟨o, ho, rfl⟩ := mem_passed_iff.1 hq
        exact hp.origin ho
      · exact hstack q (List.mem_cons_of_mem _ hq)

/-- A window is seen, or one as wide is on the stack. -/
def Pending (w : Windows) (stack : List Position) (path : Nid) (time : Timestamp) : Prop :=
  w.Sees path time ∨ ∃ p ∈ stack, p.path = path ∧ time ≤ p.time

/-- What is on top of the stack is seen already. -/
theorem Pending.drop (h : Pending w (p :: stack) path time) (hs : w.Sees p.path p.time) :
    Pending w stack path time := by
  rcases h with h | ⟨q, hq, rfl, hle⟩
  · exact .inl h
  · rcases List.mem_cons.1 hq with rfl | hq
    · exact .inl (hs.of_le hle)
    · exact .inr ⟨q, hq, rfl, hle⟩

/-- What is on top of the stack is opened. -/
theorem Pending.open (h : Pending w (p :: stack) path time) (hs : ¬w.Sees p.path p.time) :
    Pending (w.insert p.path p.time) (l.passed p ++ stack) path time := by
  have hkept : Pending (w.insert p.path p.time) (p :: (l.passed p ++ stack)) path time := by
    rcases h with h | ⟨q, hq, hpath, hle⟩
    · exact .inl ((within_insert hs).sees h)
    · refine .inr ⟨q, ?_, hpath, hle⟩
      rcases List.mem_cons.1 hq with rfl | hq
      · exact List.mem_cons_self
      · exact List.mem_cons_of_mem _ (List.mem_append_right _ hq)
  exact hkept.drop (sees_insert w p)

/-- What is seen or on the stack is seen in the end. -/
theorem sees_flattenFrom (h : Pending w stack path time) :
    (l.flattenFrom w stack).Sees path time := by
  fun_induction flattenFrom l w stack with
  | case1 w => exact h.resolve_right (by simp)
  | case2 w p stack hs ih => exact ih (h.drop hs)
  | case3 w p stack hs ih => exact ih (h.open hs)

/-- If what the open paths pass on is seen or on the stack, then in the end it is seen. -/
theorem flattenFrom_passes
    (h : ∀ path seen, w.get? path = some seen → ∀ o ∈ l.originsOf path,
      Pending w stack o.path (min seen o.time))
    {seen : Timestamp} (hseen : (l.flattenFrom w stack).get? path = some seen) {o : Origin}
    (ho : o ∈ l.originsOf path) : (l.flattenFrom w stack).Sees o.path (min seen o.time) := by
  fun_induction flattenFrom l w stack with
  | case1 w => exact (h path seen hseen o ho).resolve_right (by simp)
  | case2 w p stack hs ih =>
    exact ih (fun path seen hw o ho => (h path seen hw o ho).drop hs) hseen
  | case3 w p stack hs ih =>
    refine ih (fun path seen hw o ho => ?_) hseen
    rw [Table.get?_insert] at hw
    split at hw
    · next hpath =>
      -- what the path passes on has just been put on the stack
      obtain rfl := Option.some.inj hw
      subst hpath
      have hpassed := mem_passed_iff.2 ⟨o, ho, rfl⟩
      exact .inr ⟨_, List.mem_append_left _ hpassed, rfl, Std.le_refl _⟩
    · exact (h path seen hw o ho).open hs

/-- The walk finds the widest windows, on every lineage. -/
theorem widest_flatten (l : Lineage) (positions : List Position) :
    l.Widest positions (l.flatten positions) := by
  have hnone (path : Nid) (seen : Timestamp) : (.empty : Windows).get? path ≠ some seen := by simp
  refine ⟨fun hw => ?_, ?_⟩
  · refine opened_flattenFrom (fun path seen hw => absurd hw (hnone path seen)) (fun p hp => ?_)
      _ _ hw
    exact opens_position (List.mem_reverse.1 hp)
  · rintro path _ ⟨p, hp, route, hr, rfl⟩
    induction hr with
    | refl =>
      exact sees_flattenFrom (.inr ⟨p, List.mem_reverse.2 hp, rfl, Std.le_refl p.time⟩)
    | @step route other o hr ho ih =>
      obtain ⟨seen, hseen, hle⟩ := ih
      rw [alongRoute_concat]
      have hpassed := flattenFrom_passes (fun path seen hw => absurd hw (hnone path seen)) hseen ho
      exact hpassed.of_le (Timestamp.min_le_min_right hle o.time)

/-- Where the same origins are declared, the same paths lead to a cycle. -/
theorem leadsToCycle_congr {l l' : Lineage}
    (horigins : ∀ path o, o ∈ l'.originsOf path ↔ o ∈ l.originsOf path) :
    l'.LeadsToCycle path ↔ l.LeadsToCycle path := by
  have hsame : l'.Originates = l.Originates := by
    funext path origin
    simp only [Originates, horigins]
  simp only [LeadsToCycle, Inherits, hsame]

end Lineage

namespace Viewpoint

variable {filter : Filter} {l : Lineage} {order : TieBreakOrder} {v : Viewpoint}

theorem widest_of_make (hl : l.DeclaredOnce) (h : make filter l order = .ok v) :
    l.Widest filter.positions v.windows := by
  rw [(make_eq_ok h).2.2.1]
  exact Lineage.widest_windows hl ((exists_make_iff hl).1 ⟨v, h⟩)

theorem inWindow_iff {stamp : Stamp} (hstamp : stamp.isUncommitted = false) :
    v.inWindow stamp = true ↔ v.windows.Sees stamp.path stamp.time := by
  rw [inWindow, hstamp, Bool.not_false, Bool.true_and, window?, Windows.Sees]
  cases v.windows.get? stamp.path <;> simp

/-- The window on a path is the widest one that a route opens, and there is none if no route
    leads there. So a committed stamp lies in the window of its path just if some route ends
    there whose position and origins are all at its time or after it. The walk with a stack
    finds these windows, and so does every viewpoint of the same positions on the same
    origins, in whatever order they are listed. -/
theorem window?_widest (hl : l.DeclaredOnce) (h : make filter l order = .ok v) :
    (∀ path time, v.window? path = some time ↔
      IsGreatest {t | l.Opens filter.positions path t} time) ∧
    (∀ path, v.window? path = none ↔
      ∀ p ∈ filter.positions, ∀ route, ¬l.Route p.path route path) ∧
    (∀ stamp : Stamp, stamp.isUncommitted = false → (v.inWindow stamp = true ↔
      ∃ p ∈ filter.positions, ∃ route, l.Route p.path route stamp.path ∧
        stamp.time ≤ p.time ∧ ∀ o ∈ route, stamp.time ≤ o.time)) ∧
    (∀ path, (l.flatten filter.positions).get? path = v.window? path) ∧
    ∀ (filter' : Filter) (l' : Lineage) (order' : TieBreakOrder), l'.DeclaredOnce →
      (∀ p, p ∈ filter'.positions ↔ p ∈ filter.positions) →
      (∀ path o, o ∈ l'.originsOf path ↔ o ∈ l.originsOf path) →
      ∃ v', make filter' l' order' = .ok v' ∧ ∀ path, v'.window? path = v.window? path := by
  have hwidest := widest_of_make hl h
  refine ⟨fun path time => hwidest.get?_eq_some_iff, fun path => ?_, fun stamp hstamp => ?_,
    (Lineage.widest_flatten l filter.positions).get?_eq hwidest fun _ _ => .rfl, ?_⟩
  · rw [window?, hwidest.get?_eq_none_iff]
    constructor
    · exact fun hnone p hp route hr => hnone _ ⟨p, hp, route, hr, rfl⟩
    · rintro hnone t ⟨p, hp, route, hr, -⟩
      exact hnone p hp route hr
  · rw [inWindow_iff hstamp, hwidest.sees_iff]
    constructor
    · rintro ⟨_, ⟨p, hp, route, hr, rfl⟩, hle⟩
      exact ⟨p, hp, route, hr, Lineage.le_alongRoute_iff.1 hle⟩
    · rintro ⟨p, hp, route, hr, hle⟩
      exact ⟨_, ⟨p, hp, route, hr, rfl⟩, Lineage.le_alongRoute_iff.2 hle⟩
  · intro filter' l' order' hl' hpositions horigins
    obtain ⟨v', hv'⟩ : ∃ v', make filter' l' order' = .ok v' := by
      refine (exists_make_iff hl').2 fun p hp => ?_
      rw [Lineage.leadsToCycle_congr horigins]
      exact (exists_make_iff hl).1 ⟨v, h⟩ p ((hpositions p).1 hp)
    refine ⟨v', hv', (widest_of_make hl' hv').get?_eq hwidest fun path t => ⟨?_, ?_⟩⟩
    · exact .congr (fun p => (hpositions p).1) fun path o => (horigins path o).1
    · exact .congr (fun p => (hpositions p).2) fun path o => (horigins path o).2

/-- The path 4 inherits from the path 1 over the paths 2 and 3, over the latter twice. -/
def diamond : Lineage := ⟨⟨[(⟨4⟩, [⟨⟨2⟩, ⟨30⟩⟩, ⟨⟨3⟩, ⟨40⟩⟩]), (⟨2⟩, [⟨⟨1⟩, ⟨10⟩⟩]),
  (⟨3⟩, [⟨⟨1⟩, ⟨20⟩⟩, ⟨⟨1⟩, ⟨5⟩⟩])]⟩⟩

/-- The same origins, listed in another order. -/
def turnedDiamond : Lineage := ⟨⟨[(⟨3⟩, [⟨⟨1⟩, ⟨5⟩⟩, ⟨⟨1⟩, ⟨20⟩⟩]), (⟨1⟩, []),
  (⟨4⟩, [⟨⟨3⟩, ⟨40⟩⟩, ⟨⟨2⟩, ⟨30⟩⟩]), (⟨2⟩, [⟨⟨1⟩, ⟨10⟩⟩])]⟩⟩

/-- A reader on the path 4 and, not so far along, on its origin 3. -/
def onDiamond : Filter where
  statuses := .active
  positions := [⟨⟨3⟩, ⟨15⟩⟩, ⟨⟨4⟩, ⟨100⟩⟩]
  modules := .any
  languages := []
  positions_ne_nil := by simp
  nodup_paths := by decide

theorem window?_widest_on_diamond :
    diamond.DeclaredOnce ∧ ∃ v, make onDiamond diamond .standard = .ok v ∧
      v.window? ⟨1⟩ = some ⟨20⟩ ∧ IsGreatest {t | diamond.Opens onDiamond.positions ⟨1⟩ t} ⟨20⟩ ∧
      (∀ p ∈ onDiamond.positions, ∀ route, ¬diamond.Route p.path route ⟨9⟩) ∧
      (∃ p ∈ onDiamond.positions, ∃ route, diamond.Route p.path route ⟨1⟩ ∧ ⟨20⟩ ≤ p.time ∧
        ∀ o ∈ route, ⟨20⟩ ≤ o.time) ∧
      (diamond.flatten onDiamond.positions).get? ⟨1⟩ = some ⟨20⟩ ∧
      ∃ v', make onDiamond turnedDiamond .standard = .ok v' ∧ v'.window? ⟨1⟩ = some ⟨20⟩ := by
  have hl : diamond.DeclaredOnce := (by decide : diamond.origins.keys.Nodup)
  have hl' : turnedDiamond.DeclaredOnce := (by decide : turnedDiamond.origins.keys.Nodup)
  obtain ⟨v, hv, hone, hnine, hin⟩ : ∃ v, make onDiamond diamond .standard = .ok v ∧
      v.window? ⟨1⟩ = some ⟨20⟩ ∧ v.window? ⟨9⟩ = none ∧
      v.inWindow { status := .active, time := ⟨20⟩, author := ⟨7⟩, module := ⟨8⟩, path := ⟨1⟩ } =
        true := ⟨_, by cbv, by cbv, by cbv, by cbv⟩
  obtain ⟨hwidest, hnone, hstamps, hflat, hturned⟩ := window?_widest hl hv
  obtain ⟨v', hv', hsame⟩ := hturned onDiamond turnedDiamond .standard hl' (fun _ => .rfl) <| by
    simp only [Lineage.originsOf, Table.get?, Table.find?, diamond, turnedDiamond]
    grind
  exact ⟨hl, v, hv, hone, (hwidest _ _).1 hone, (hnone _).1 hnine, (hstamps _ (by decide)).1 hin,
    (hflat _).trans hone, v', hv', (hsame _).trans hone⟩

end Viewpoint

end Bitemporal
