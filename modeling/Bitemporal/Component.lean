import Bitemporal.Nid

/-!
# Components

What a store holds is components of two kinds. A *concept* stands for itself. A
*semantic* is about another component, and belongs to an *assemblage*: a
component whose declared schema says which fields the versions of the semantic
carry. The `Shape` of a component is its kind with these two references; it
never changes.

Within each kind, components are also numbered without gaps from zero, in the
order in which their kind became known (`SequenceNumber`).
-/

namespace Bitemporal

/-- The two kinds of components. -/
inductive Kind where
  | concept
  | semantic
deriving DecidableEq, Repr, Inhabited

namespace Kind

/-- All kinds, in the order of their tags. -/
def all : List Kind := [.concept, .semantic]

/-- The octet that stands for a kind in a record. -/
def tag : Kind → UInt8
  | .concept => 1
  | .semantic => 2

/-- The kind that an octet stands for. -/
def ofTag? (tag : UInt8) : Option Kind :=
  all.find? fun k => k.tag = tag

/-- The name of a kind. -/
def name : Kind → String
  | .concept => "concept"
  | .semantic => "semantic"

instance : ToString Kind := ⟨name⟩

theorem ofTag?_tag (k : Kind) : ofTag? k.tag = some k := by
  cases k <;> rfl

end Kind

/-- What a component is about. -/
inductive Shape where
  /-- A concept. -/
  | concept
  /-- A semantic that belongs to `assemblage` and is about `referenced`. -/
  | semantic (assemblage referenced : Nid)
deriving DecidableEq, Repr, Inhabited

namespace Shape

/-- The kind of the components of a shape. -/
def kind : Shape → Kind
  | .concept => .concept
  | .semantic .. => .semantic

/-- The assemblage of a semantic. -/
def assemblage? : Shape → Option Nid
  | .concept => none
  | .semantic assemblage _ => some assemblage

/-- The component that a semantic is about. -/
def referenced? : Shape → Option Nid
  | .concept => none
  | .semantic _ referenced => some referenced

end Shape

/-- The number of a component among those of its kind. -/
structure SequenceNumber where
  /-- The number itself. -/
  val : UInt32
deriving DecidableEq, Repr, Inhabited

instance : ToString SequenceNumber := ⟨fun s => s!"seq:{s.val.toNat}"⟩

end Bitemporal
