import Bitemporal.History
import Bitemporal.Viewpoint.TieBreak
import Bitemporal.Viewpoint.Windows

/-!
# Viewpoints

A `Viewpoint` is a filter put on a lineage: it answers which version of a history
is seen. It keeps the windows and ancestors that the lineage had when it was
made, so it goes on answering from the same coordinate while the store moves on.

Of the committed versions, those *visible* lie in the window of their path and
have a status and a module that count. On each path the latest visible version is
the candidate of the path; of two that have the same time it is the one whose
module has the better rank, and then the one committed later. The tie-break rules
choose between the candidates of several paths, each rule as long as there are at
least two:

* by path specificity, a candidate is dropped if its path is an ancestor of the
  path of another one;
* by module priority, if the filter prefers modules, only the candidates of the
  best rank are kept.

What is left is the answer, a `Latest`: nothing, one version, or versions that
contradict each other, ordered by path.

`Viewpoint.latest` looks for the latest version that has a status that counts.
`Viewpoint.current` looks for the latest version of any status, and then drops
what does not count: so a version is retired by a later one of another status.
-/

namespace Bitemporal

/-- What is seen of a history. -/
inductive Latest where
  /-- Nothing. -/
  | empty
  /-- One version. -/
  | present (version : Version)
  /-- Two or more versions, on different paths. -/
  | contradiction (first second : Version) (others : List Version)
deriving DecidableEq, Repr

namespace Latest

/-- What is seen if the given versions are left. -/
def ofCandidates : List Version → Latest
  | [] => .empty
  | [version] => .present version
  | first :: second :: others => .contradiction first second others

/-- The versions that are seen. -/
def versions : Latest → List Version
  | .empty => []
  | .present version => [version]
  | .contradiction first second others => first :: second :: others

/-- Whether nothing is seen. -/
def isEmpty : Latest → Bool
  | .empty => true
  | _ => false

/-- Whether the versions that are seen contradict each other. -/
def isContradiction : Latest → Bool
  | .contradiction .. => true
  | _ => false

@[simp] theorem versions_ofCandidates (l : List Version) : (ofCandidates l).versions = l := by
  match l with
  | [] => rfl
  | [_] => rfl
  | _ :: _ :: _ => rfl

end Latest

/-- A filter put on a lineage. -/
structure Viewpoint where
  /-- The filter. -/
  filter : Filter
  /-- The window on each path that is seen. -/
  windows : Windows
  /-- The paths from which each of these paths inherits. -/
  ancestors : Table Nid NidSet
  /-- The rules that choose between paths. -/
  tieBreaks : TieBreakOrder
deriving DecidableEq, Repr

namespace Viewpoint

/-- The ancestors of each path that has a window. -/
def ancestorsOf (l : Lineage) (paths : List Nid) : Except Error (Table Nid NidSet) :=
  paths.foldlM (fun t path => do return t.insert path (← l.ancestors path)) .empty

/-- The viewpoint of a filter, refused if a cycle of origins is reached from where
    it stands. -/
def make (filter : Filter) (l : Lineage) (tieBreaks : TieBreakOrder) : Except Error Viewpoint := do
  filter.positions.forM fun p => l.checkFrom p.path
  let windows := l.windows filter.positions
  let ancestors ← ancestorsOf l windows.keys
  return { filter, windows, ancestors, tieBreaks }

variable (v : Viewpoint)

/-- The window on a path. -/
def window? (path : Nid) : Option Timestamp :=
  v.windows.get? path

/-- Whether a stamp lies in the window of its path. -/
def inWindow (stamp : Stamp) : Bool :=
  !stamp.isUncommitted &&
    match v.window? stamp.path with
    | some seen => stamp.time ≤ seen
    | none => false

/-- Whether a version is visible if the given statuses count. -/
def passes (statuses : StatusSet) (version : Version) : Bool :=
  v.inWindow version.stamp && statuses.contains version.stamp.status &&
    v.filter.modules.allows version.stamp.module

/-- The visible versions, in the order of their commits. -/
def visible (h : History) : List Version :=
  h.committed.filter (v.passes v.filter.statuses)

/-- The rank of the module of a version. -/
def rank (version : Version) : Nat :=
  v.filter.modules.rank version.stamp.module

/-- Whether a version takes the place of one that was committed before it on the
    same path. -/
def supersedes (version held : Version) : Bool :=
  held.stamp.time < version.stamp.time ||
    (version.stamp.time = held.stamp.time && v.rank version ≤ v.rank held)

/-- The candidates of the paths, which are in ascending order, after one more
    version. -/
def contend (version : Version) : List Version → List Version
  | [] => [version]
  | held :: rest =>
    if version.stamp.path < held.stamp.path then version :: held :: rest
    -- there is one candidate per path, so nothing further on can be of this path
    else if version.stamp.path = held.stamp.path then
      (if v.supersedes version held then version else held) :: rest
    else held :: contend version rest

/-- The candidate of each path, in ascending order of the paths. -/
def candidates (versions : List Version) : List Version :=
  versions.foldl (fun held version => v.contend version held) []

/-- Whether a path is an ancestor of another one that has a window. -/
def isAncestor (path other : Nid) : Bool :=
  match v.ancestors.get? other with
  | some ancestors => path ∈ ancestors
  | none => false

/-- The candidates whose path is not an ancestor of another candidate's path. -/
def mostSpecific (l : List Version) : List Version :=
  l.filter fun a => !l.any fun b =>
    b.stamp.path ≠ a.stamp.path && v.isAncestor a.stamp.path b.stamp.path

/-- The candidates of the best rank. -/
def bestRanked (l : List Version) : List Version :=
  l.filter fun a => l.all fun b => v.rank a ≤ v.rank b

/-- What a rule leaves of the candidates. -/
def choose (l : List Version) : TieBreak → List Version
  | .pathSpecificity => v.mostSpecific l
  | .modulePriority => if v.filter.modules.isPrioritized then v.bestRanked l else l

/-- What the rules leave of the candidates. -/
def chooseAll (l : List Version) : List TieBreak → List Version
  | [] => l
  | rule :: rules => if l.length < 2 then l else chooseAll (v.choose l rule) rules

/-- What is seen of a history if the given statuses count. -/
def resolve (statuses : StatusSet) (h : History) : Latest :=
  .ofCandidates
    (v.chooseAll (v.candidates (h.committed.filter (v.passes statuses))) v.tieBreaks.rules)

/-- The latest version with a status that counts. -/
def latest (h : History) : Latest :=
  v.resolve v.filter.statuses h

/-- The latest version of any status, if its status counts. -/
def current (h : History) : Latest :=
  .ofCandidates ((v.resolve .all h).versions.filter fun version =>
    v.filter.statuses.contains version.stamp.status)

end Viewpoint

end Bitemporal
