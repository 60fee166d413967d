import Bitemporal.Proofs.Lineage.Cycles
import Bitemporal.Proofs.Store.Operation
import Bitemporal.Proofs.Timestamp
import Bitemporal.Viewpoint.Windows
import Mathlib

/-!
# Routes over origins

A reader sees an origin through every chain of declared origins that leads there, a *route*
(`Lineage.Route`). Each origin on it cuts the window: what is left is the earliest of the
times (`Lineage.alongRoute`). Routes are told from their start on, so that the last origin is
the one that passes the window on.

* `Route.length_le`: a route from a path that leads to no cycle has no more steps than there
  are declared paths, since the paths that it leaves are declared and all different;
* `opens_singleton_iff`: what is opened from a position, told by the first step of the routes;
* `Opens.congr`: what routes open depends on the positions and origins alone, in whatever
  order they are listed.

The entries of a lineage list each path once (`Lineage.DeclaredOnce`), as declarations see to
(`declaredOnce_after`). So it is with the paths of every store
(`Store.declaredOnce_of_reachable`).
-/

namespace Bitemporal.Lineage

variable {l l' : Lineage} {path other : Nid} {time seen : Timestamp} {o : Origin}
  {route : List Origin} {positions positions' : List Position}

/-! ## Declarations -/

/-- No path has two entries. -/
def DeclaredOnce (l : Lineage) : Prop :=
  l.origins.keys.Nodup

theorem declaredOnce_empty : empty.DeclaredOnce := List.nodup_nil

/-- Requests to declared paths keep it so that no path has two entries. -/
theorem declaredOnce_after (hl : l.DeclaredOnce) (request : Operation) :
    (l.after request).DeclaredOnce := by
  cases request with
  | reset => exact declaredOnce_empty
  | declare path origins =>
    simp only [after, declare]
    cases l.origins.get? path with
    | none => exact Table.nodup_keys_insert hl path origins
    | some held => by_cases h : held = origins <;> simpa [h] using hl

theorem DeclaredOnce.originsOf_eq (hl : l.DeclaredOnce) {origins : List Origin}
    (h : (path, origins) ∈ l.origins.entries) : l.originsOf path = origins := by
  rw [originsOf, (Table.get?_eq_some_iff hl).2 h]
  rfl

/-- Origins are declared by an entry. -/
theorem mem_entries_of_mem_originsOf (ho : o ∈ l.originsOf path) :
    (path, l.originsOf path) ∈ l.origins.entries := by
  rw [originsOf] at ho ⊢
  cases hget : l.origins.get? path with
  | none => simp [hget] at ho
  | some origins => exact Table.mem_entries_of_get? hget

/-! ## Routes -/

/-- A chain of declared origins leads from one path to another. -/
inductive Route (l : Lineage) (path : Nid) : List Origin → Nid → Prop
  | refl : Route l path [] path
  | step {route : List Origin} {other : Nid} {o : Origin} :
      Route l path route other → o ∈ l.originsOf other → Route l path (route ++ [o]) o.path

theorem Route.reached (h : l.Route path route other) :
    Relation.ReflTransGen l.Originates path other := by
  induction h with
  | refl => exact .refl
  | step _ ho ih => exact ih.tail ⟨_, ho, rfl⟩

theorem Route.congr (hsame : ∀ path o, o ∈ l.originsOf path → o ∈ l'.originsOf path)
    (h : l.Route path route other) : l'.Route path route other := by
  induction h with
  | refl => exact .refl
  | step _ ho ih => exact ih.step (hsame _ _ ho)

/-- A route goes on from an origin of where it starts. -/
theorem Route.cons (ho : o ∈ l.originsOf path) (h : l.Route o.path route other) :
    l.Route path (o :: route) other := by
  induction h with
  | refl => exact .step .refl ho
  | step _ ho' ih => exact ih.step ho'

/-- A route ends where it starts, or it goes on from an origin. -/
theorem Route.cases_head (h : l.Route path route other) :
    route = [] ∧ other = path ∨
      ∃ o ∈ l.originsOf path, ∃ rest, route = o :: rest ∧ l.Route o.path rest other := by
  induction h with
  | refl => exact .inl ⟨rfl, rfl⟩
  | step _ ho ih =>
    rcases ih with ⟨rfl, rfl⟩ | ⟨first, hfirst, rest, rfl, hrest⟩
    · exact .inr ⟨_, ho, [], rfl, .refl⟩
    · exact .inr ⟨first, hfirst, rest ++ [_], rfl, hrest.step ho⟩

/-- The paths that a route leaves are declared, and all different unless there is a cycle. -/
theorem Route.exists_left (h : l.Route path route other) (hpath : ¬l.LeadsToCycle path) :
    ∃ left : List Nid, left.length = route.length ∧ left.Nodup ∧
      ∀ m ∈ left, m ∈ l.origins.keys ∧ l.Inherits m other := by
  induction h with
  | refl => exact ⟨[], rfl, List.nodup_nil, by simp⟩
  | @step route other o hr ho ih =>
    obtain ⟨left, hlength, hnodup, hleft⟩ := ih
    have hstep : l.Originates other o.path := ⟨o, ho, rfl⟩
    -- all that was left before inherits from `other`, which does not inherit from itself
    have hnew : other ∉ left := fun hmem => hpath ⟨other, hr.reached, (hleft other hmem).2⟩
    refine ⟨other :: left, by simp [hlength], List.nodup_cons.2 ⟨hnew, hnodup⟩, ?_⟩
    rw [List.forall_mem_cons]
    exact ⟨⟨mem_keys_of_originates hstep, .single hstep⟩, fun m hm =>
      ⟨(hleft m hm).1, (hleft m hm).2.tail hstep⟩⟩

/-- A route that meets no cycle has no more steps than there are declared paths. -/
theorem Route.length_le (h : l.Route path route other) (hpath : ¬l.LeadsToCycle path) :
    route.length ≤ l.size := by
  obtain ⟨left, hlength, hnodup, hleft⟩ := h.exists_left hpath
  have hle := hnodup.length_le_of_subset fun m hm => (hleft m hm).1
  rwa [hlength, Table.keys, List.length_map] at hle

/-! ## Windows along routes -/

/-- What a route leaves of a window: the earliest of its time and the times of the origins. -/
def alongRoute (time : Timestamp) (route : List Origin) : Timestamp :=
  route.foldl (fun time o => min time o.time) time

theorem alongRoute_concat (time : Timestamp) (route : List Origin) (o : Origin) :
    alongRoute time (route ++ [o]) = min (alongRoute time route) o.time :=
  List.foldl_concat ..

theorem le_alongRoute_iff : seen ≤ alongRoute time route ↔
    seen ≤ time ∧ ∀ o ∈ route, seen ≤ o.time := by
  induction route generalizing time with
  | nil => simp [alongRoute]
  | cons o route ih =>
    rw [alongRoute, List.foldl_cons, ← alongRoute, ih, Std.le_min_iff, List.forall_mem_cons,
      and_assoc]

/-- A route from one of the positions leaves this window on a path. -/
def Opens (l : Lineage) (positions : List Position) (path : Nid) (time : Timestamp) : Prop :=
  ∃ p ∈ positions, ∃ route, l.Route p.path route path ∧ alongRoute p.time route = time

theorem opens_position {p : Position} (hp : p ∈ positions) : l.Opens positions p.path p.time :=
  ⟨p, hp, [], .refl, rfl⟩

theorem Opens.origin (h : l.Opens positions path time) (ho : o ∈ l.originsOf path) :
    l.Opens positions o.path (min time o.time) := by
  obtain ⟨p, hp, route, hr, rfl⟩ := h
  exact ⟨p, hp, route ++ [o], hr.step ho, alongRoute_concat ..⟩

/-- From one position its own window is opened, and what is opened from its origins, up to
    the time that they pass on. -/
theorem opens_singleton_iff {p : Position} : l.Opens [p] path time ↔
    path = p.path ∧ time = p.time ∨
      ∃ o ∈ l.originsOf p.path, l.Opens [⟨o.path, min p.time o.time⟩] path time := by
  simp only [Opens, List.mem_singleton, exists_eq_left]
  constructor
  · rintro ⟨route, hr, rfl⟩
    rcases hr.cases_head with ⟨rfl, rfl⟩ | ⟨o, ho, rest, rfl, hrest⟩
    · exact .inl ⟨rfl, rfl⟩
    · exact .inr ⟨o, ho, rest, hrest, rfl⟩
  · rintro (⟨rfl, rfl⟩ | ⟨o, ho, rest, hrest, rfl⟩)
    · exact ⟨[], .refl, rfl⟩
    · exact ⟨o :: rest, hrest.cons ho, rfl⟩

/-- What is opened is reached from a position. -/
theorem Opens.reached (h : l.Opens positions path time) :
    ∃ p ∈ positions, Relation.ReflTransGen l.Originates p.path path := by
  obtain ⟨p, hp, route, hr, -⟩ := h
  exact ⟨p, hp, hr.reached⟩

/-- What is opened depends on the positions and on the origins of each path alone. -/
theorem Opens.congr (hpositions : ∀ p, p ∈ positions → p ∈ positions')
    (horigins : ∀ path o, o ∈ l.originsOf path → o ∈ l'.originsOf path)
    (h : l.Opens positions path time) : l'.Opens positions' path time := by
  obtain ⟨p, hp, route, hr, htime⟩ := h
  exact ⟨p, hpositions p hp, route, hr.congr horigins, htime⟩

end Bitemporal.Lineage
