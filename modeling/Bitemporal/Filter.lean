import Bitemporal.Distinct
import Bitemporal.Error
import Bitemporal.Filter.Statuses

/-!
# Filters

A `Filter` is the coordinate from which a reader looks: the statuses that count,
the paths on which the reader stands and how far along each of them, the modules
that count in the order of their priority, and the languages that are preferred.

A filter stands on at least one path and on none of them twice. It is made by a
`Filter.Builder`, which collects what is asked for and refuses a filter that
stands nowhere or twice on one path.
-/

namespace Bitemporal

/-- Where a reader stands on one path. -/
structure Position where
  /-- The path. -/
  path : Nid
  /-- The latest time that is seen on it. -/
  time : Timestamp
deriving DecidableEq, Repr, Inhabited

/-- The modules that count. -/
inductive ModuleFilter where
  /-- All of them, none before another. -/
  | any
  /-- Those listed, the first one having the highest priority. -/
  | prioritized (modules : List Nid)
deriving DecidableEq, Repr

namespace ModuleFilter

instance : Inhabited ModuleFilter := ⟨any⟩

/-- Whether a module counts. -/
def allows : ModuleFilter → Nid → Bool
  | any, _ => true
  | prioritized modules, module => modules.contains module

/-- The rank of a module that counts, from zero; the lower it is the better. -/
def rank? : ModuleFilter → Nid → Option Nat
  | any, _ => some 0
  | prioritized modules, module => modules.idxOf? module

/-- The rank of a module; those that do not count come after all that do. -/
def rank : ModuleFilter → Nid → Nat
  | any, _ => 0
  | prioritized modules, module => modules.idxOf module

/-- Whether some modules come before others. -/
def isPrioritized : ModuleFilter → Bool
  | any => false
  | prioritized _ => true

end ModuleFilter

/-- The coordinate from which a reader looks. -/
structure Filter where
  /-- The statuses that count. -/
  statuses : StatusSet
  /-- Where the reader stands. -/
  positions : List Position
  /-- The modules that count. -/
  modules : ModuleFilter
  /-- The preferred languages, the most preferred one first. -/
  languages : List Nid
  /-- The reader stands somewhere. -/
  positions_ne_nil : positions ≠ []
  /-- The reader stands once on each path. -/
  nodup_paths : (positions.map Position.path).Nodup
deriving DecidableEq, Repr

namespace Filter

/-- Active versions of all modules, at the end of one path. -/
def latestOn (path : Nid) : Filter where
  statuses := .active
  positions := [⟨path, .latest⟩]
  modules := .any
  languages := []
  positions_ne_nil := by simp
  nodup_paths := by simp

/-- The same filter with other statuses. -/
def withStatuses (f : Filter) (statuses : StatusSet) : Filter :=
  { f with statuses }

/-- The same filter with other modules. -/
def withModules (f : Filter) (modules : ModuleFilter) : Filter :=
  { f with modules }

/-- What is asked of a filter so far. -/
structure Builder where
  /-- The statuses that count. -/
  statuses : StatusSet := .empty
  /-- Where the reader stands. -/
  positions : List Position := []
  /-- The modules that count; all of them if none was asked for. -/
  modules : Option (List Nid) := none
  /-- The preferred languages. -/
  languages : List Nid := []
deriving DecidableEq, Repr

namespace Builder

/-- Nothing is asked for yet. -/
def empty : Builder := {}

/-- Counts a status. -/
def allowStatus (b : Builder) (status : Status) : Builder :=
  { b with statuses := b.statuses.insert status }

/-- Counts all statuses of a set. -/
def allowStatuses (b : Builder) (statuses : StatusSet) : Builder :=
  { b with statuses := b.statuses.union statuses }

/-- Stands on a path, seeing it up to a time. -/
def position (b : Builder) (path : Nid) (time : Timestamp) : Builder :=
  { b with positions := b.positions ++ [⟨path, time⟩] }

/-- Counts a module, after all those before it. -/
def module (b : Builder) (module : Nid) : Builder :=
  { b with modules := some (b.modules.getD [] ++ [module]) }

/-- Counts all modules. -/
def anyModule (b : Builder) : Builder :=
  { b with modules := none }

/-- Prefers a language, after all those before it. -/
def language (b : Builder) (language : Nid) : Builder :=
  { b with languages := b.languages ++ [language] }

/-- The filter that was asked for. -/
def build (b : Builder) : Except Error Filter :=
  if h : b.positions = [] then .error (.invalidCoordinate .unpositioned)
  else
    match hr : firstRepeated? (b.positions.map Position.path) with
    | some path => .error (.invalidCoordinate (.positionedTwice path))
    | none => .ok {
        statuses := b.statuses
        positions := b.positions
        modules := b.modules.elim .any .prioritized
        languages := b.languages
        positions_ne_nil := h
        nodup_paths := firstRepeated?_eq_none_iff.1 hr }

end Builder

end Filter

end Bitemporal
