import Bitemporal.Digraph
import Bitemporal.Error

/-!
# Paths and their origins

A path is a line of development. It may originate from other paths, from each at
a time of its own: it inherits what was made on the origin up to that time, the
time included, and goes its own way afterwards.

Origins are declared once and taken as they are, cycles included. A cycle is
found when a question would have to go around it: `Lineage.check` looks at all
paths, `Lineage.checkFrom` at those that a path inherits from.
-/

namespace Bitemporal

/-- One origin of a path. -/
structure Origin where
  /-- The path that is inherited from. -/
  path : Nid
  /-- The last time of what is inherited. -/
  time : Timestamp
deriving DecidableEq, Repr, Inhabited

/-- The declared origins of paths. -/
structure Lineage where
  /-- The origins of each declared path, in the order of their declaration. -/
  origins : Table Nid (List Origin) := .empty
deriving DecidableEq, Repr

namespace Lineage

/-- The lineage without paths. -/
def empty : Lineage := {}

/-- The number of declared paths. -/
def size (l : Lineage) : Nat :=
  l.origins.size

/-- Whether no path is declared. -/
def isEmpty (l : Lineage) : Bool :=
  l.origins.isEmpty

/-- Whether a path is declared. -/
def contains (l : Lineage) (path : Nid) : Bool :=
  l.origins.contains path

/-- The origins of a path, none for a path that is not declared. -/
def originsOf (l : Lineage) (path : Nid) : List Origin :=
  (l.origins.get? path).getD []

/-- The lineage with a path and its origins. Declaring a path again changes
    nothing, and is refused if the origins are others. -/
def declare (l : Lineage) (path : Nid) (origins : List Origin) : Except Error Lineage :=
  match l.origins.get? path with
  | some held =>
    if held = origins then .ok l else .error (.invalidOperation (.otherOrigins path))
  | none => .ok ⟨l.origins.insert path origins⟩

/-- The graph that leads from each path to its origins. -/
def graph (l : Lineage) : Digraph :=
  ⟨⟨l.origins.entries.map fun (path, origins) => (path, origins.map Origin.path)⟩⟩

/-- Refuses paths from which a cycle of origins is reached. -/
def checkPaths (l : Lineage) (paths : List Nid) : Except Error Unit :=
  match l.graph.checkAcyclic paths with
  | .ok _ => .ok ()
  | .error path => .error (.invalidCoordinate (.originCycle path))

/-- Refuses a path from which a cycle of origins is reached. -/
def checkFrom (l : Lineage) (path : Nid) : Except Error Unit :=
  l.checkPaths [path]

/-- Refuses a lineage with a cycle of origins. -/
def check (l : Lineage) : Except Error Unit :=
  l.checkPaths (NidSet.ofList l.origins.keys).toList

/-- The paths that a path inherits from, itself excluded. -/
def ancestors (l : Lineage) (path : Nid) : Except Error NidSet := do
  l.checkFrom path
  return l.graph.above path

/-- Whether a path inherits from another. -/
def isOriginOf (l : Lineage) (origin path : Nid) : Except Error Bool := do
  return origin ∈ (← l.ancestors path)

end Lineage

end Bitemporal
