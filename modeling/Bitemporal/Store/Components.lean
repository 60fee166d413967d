import Bitemporal.Store

/-!
# Creating components

A component is created under a set of identifiers. If one of them is known
already, the component that it belongs to is the answer, provided that it has the
shape asked for; otherwise a new component is made with an empty history.
-/

namespace Bitemporal.Store

/-- Refuses to make a semantic of an assemblage without schema, or about nothing. -/
def checkShape (s : Store) : Shape → Except Error Unit
  | .concept => .ok ()
  | .semantic assemblage referenced => do
    let _ ← s.schema assemblage
    if s.identities.contains referenced then return ()
    else throw (.unknownIdentifier referenced)

/-- Refuses identifiers that belong to a component of another kind. -/
def checkOwner (s : Store) (uuids : List Uuid) (kind : Kind) : Except Error Unit := do
  match ← s.identities.owner? uuids with
  | none => return ()
  | some owner =>
    match s.identities.kindOf owner with
    -- identifiers may be known of a component that has no kind yet
    | .error _ => return ()
    | .ok registered =>
      if registered = kind then return ()
      else throw (.invalidOperation (.otherKind owner registered kind))

/-- The component of a shape with the given identifiers. -/
def create (uuids : List Uuid) (shape : Shape) : Action Nid := do
  (← get).checkShape shape
  (← get).checkOwner uuids shape.kind
  let nid ← onIdentities fun ids => ids.nidFor uuids
  let _ ← onIdentities fun ids => ids.registerKind nid shape.kind
  let s ← get
  match s.histories.get? nid with
  | some h =>
    if h.shape = shape then return nid else throw (.invalidOperation (.otherShape nid))
  | none =>
    set { s with
      histories := s.histories.insert nid { nid, shape }
      index := s.index.fileShape nid shape }
    return nid

/-- A path: a concept under an identifier that was made for it, declared with
    origins. The concept is there even if the origins are refused. -/
def createPath (fresh : Uuid) (origins : List Origin) : Action Nid := do
  let path ← create [fresh] .concept
  declarePath path origins
  return path

end Bitemporal.Store
