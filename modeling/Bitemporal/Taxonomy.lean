import Bitemporal.Store
import Bitemporal.Viewpoint

/-!
# Taxonomies

The semantics of an assemblage can be read as edges between concepts: an edge
leads from the component that the semantic is about, the parent, to the component
whose number stands in a certain field, the child. A `Taxonomy` reads them so
from a viewpoint.

Nothing is kept from one question to the next. Every question finds edges by an
index, looks at what is current of each, and takes an edge only if the concept at
its far end has a current version itself. A hit of an index that leads to nothing
of the kind is passed over.

* `Taxonomy.children` goes down by the index of the store;
* `Taxonomy.parents` goes up by an index that may be replaced
  (`Taxonomy.reverse`), and may answer too much;
* questions about all descendants are answered from a `Closure`, if there is one.
-/

namespace Bitemporal

/-- The ancestors of the concepts that were reached from some roots. -/
structure Closure where
  /-- The assemblage whose edges were followed. -/
  assemblage : Nid
  /-- The ancestors of each concept that was reached. -/
  ancestors : Table Nid NidSet
deriving DecidableEq, Repr

namespace Closure

/-- The ancestors of a concept. -/
def ancestorsOf (c : Closure) (concept : Nid) : NidSet :=
  (c.ancestors.get? concept).getD ∅

/-- Whether a concept lies below another. -/
def isDescendantOf (c : Closure) (descendant ancestor : Nid) : Bool :=
  ancestor ∈ c.ancestorsOf descendant

/-- The number of concepts that were reached. -/
def size (c : Closure) : Nat :=
  c.ancestors.size

/-- Whether nothing was reached. -/
def isEmpty (c : Closure) : Bool :=
  c.ancestors.isEmpty

end Closure

/-- A reading of the semantics of an assemblage as edges. -/
structure Taxonomy where
  /-- The assemblage. -/
  assemblage : Nid
  /-- The position of the field that holds the child. -/
  childField : Nat
  /-- From where the edges and concepts are seen. -/
  viewpoint : Viewpoint
  /-- What contradicting versions of an edge contribute. -/
  policy : ContradictionPolicy := .includeAll
  /-- Semantics that may hold a component number in a field. -/
  reverse : Store → Nid → List Nid := fun s value => (s.semanticsHolding value).toList
  /-- The closure that answers transitive questions. -/
  closure : Option Closure := none

namespace Taxonomy

/-- The taxonomy of an assemblage that declares component numbers at the position
    of the child. -/
def make (s : Store) (assemblage : Nid) (childField : Nat) (viewpoint : Viewpoint) :
    Except Error Taxonomy := do
  let schema ← s.schema assemblage
  match schema.type? childField with
  | some .nid => return { assemblage, childField, viewpoint }
  | some actual => throw (.fieldTypeMismatch childField .nid actual)
  | none => throw (.arityMismatch schema.arity (childField + 1))

/-- The same taxonomy with another policy. -/
def withPolicy (t : Taxonomy) (policy : ContradictionPolicy) : Taxonomy :=
  { t with policy }

/-- The same taxonomy with another way to find the edges to a child. -/
def withReverse (t : Taxonomy) (reverse : Store → Nid → List Nid) : Taxonomy :=
  { t with reverse }

/-- The same taxonomy with a closure over the same assemblage. -/
def withClosure (t : Taxonomy) (closure : Closure) : Except Error Taxonomy :=
  if closure.assemblage = t.assemblage then .ok { t with closure := some closure }
  else .error (.invalidOperation (.foreignClosure closure.assemblage t.assemblage))

variable (t : Taxonomy) (s : Store)

/-! ## Single edges and concepts -/

/-- Whether a component has a current version. -/
def isVisible (concept : Nid) : Except Error Bool :=
  (s.history concept).map fun h => !(t.viewpoint.current h).isEmpty

/-- Whether a component is there and has a current version. -/
def sees (concept : Nid) : Bool :=
  match s.histories.get? concept with
  | some h => !(t.viewpoint.current h).isEmpty
  | none => false

/-- The versions of an edge that count under a policy. -/
def kept : ContradictionPolicy → Latest → List Version
  | .exclude, .contradiction .. => []
  | _, seen => seen.versions

/-- The child that a version of an edge names. -/
def childIn? (version : Version) : Option Nid :=
  version.payload.tuple?.bind fun tuple => tuple.nidAt? t.childField

/-- The children that an edge leads to. -/
def ends (edge : History) : List Nid :=
  (kept t.policy (t.viewpoint.current edge)).filterMap t.childIn?

/-! ## Neighbours -/

/-- The concepts directly below a component. -/
def children (parent : Nid) : Except Error NidSet := do
  let _ ← s.history parent
  let edges ← (s.semanticsAbout t.assemblage parent).toList.mapM s.history
  return .ofList ((edges.flatMap t.ends).filter (t.sees s))

/-- The parent from which an edge leads to a child, if both the edge and the
    parent are seen. -/
def parentThrough? (child edge : Nid) : Option Nid :=
  match s.histories.get? edge with
  | none => none
  | some h =>
    match h.shape with
    | .concept => none
    | .semantic assemblage parent =>
      if assemblage = t.assemblage ∧ child ∈ t.ends h ∧ t.sees s parent then some parent else none

/-- The concepts directly above a component. -/
def parents (child : Nid) : Except Error NidSet := do
  let _ ← s.history child
  return .ofList ((t.reverse s child).filterMap (t.parentThrough? s child))

/-- Whether a component lies directly below another. -/
def isChildOf (child parent : Nid) : Except Error Bool := do
  return parent ∈ (← t.parents s child)

/-- Whether nothing lies below a component. -/
def isLeaf (concept : Nid) : Except Error Bool :=
  (t.children s concept).map NidSet.isEmpty

/-- Whether nothing lies above a component. -/
def isRoot (concept : Nid) : Except Error Bool :=
  (t.parents s concept).map NidSet.isEmpty

/-! ## Transitive questions -/

/-- The closure, without which transitive questions are refused. -/
def closureOrRefuse : Except Error Closure :=
  match t.closure with
  | some closure => .ok closure
  | none => .error (.unsupportedByAssemblage t.assemblage)

/-- Whether a concept lies below another. -/
def isDescendantOf (descendant ancestor : Nid) : Except Error Bool := do
  return (← t.closureOrRefuse).isDescendantOf descendant ancestor

/-- Whether a concept is another one or lies below it. -/
def isKindOf (concept kind : Nid) : Except Error Bool := do
  let closure ← t.closureOrRefuse
  return concept = kind || closure.isDescendantOf concept kind

end Taxonomy

end Bitemporal
