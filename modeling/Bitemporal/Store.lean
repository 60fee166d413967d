import Bitemporal.History
import Bitemporal.Identities
import Bitemporal.Index
import Bitemporal.Lineage
import Bitemporal.StampTable

/-!
# The store

A `Store` owns the histories of all components, and the tables that they share:
identities, interned stamps, origins of paths, schemas of assemblages, and
indices. It is an immutable value.

What changes a store is an `Action`: a computation that reads a store, makes
another one, and either answers or is refused. A refused action keeps what it did
before the refusal; that most actions do nothing before they can still be refused
is a theorem about each of them, not a property of the type.
-/

namespace Bitemporal

/-! ## What is filed -/

namespace Index

/-- Files a component, if it is a semantic. -/
def fileShape (i : Index) (nid : Nid) : Shape → Index
  | .concept => i
  | .semantic assemblage referenced => i.addSemantic nid assemblage referenced

/-- Files a committed version under the component numbers in its fields. -/
def fileVersion (i : Index) (nid : Nid) (v : Version) : Index :=
  match v.payload with
  | .bare => i
  | .fields tuple => i.addValues nid tuple.referencedNids

/-- Files a component and all its committed versions. -/
def fileHistory (i : Index) (h : History) : Index :=
  h.committed.foldl (fun i v => i.fileVersion h.nid v) (i.fileShape h.nid h.shape)

end Index

/-! ## Stores -/

/-- A store of components and their versions. -/
structure Store where
  /-- The identities of the components. -/
  identities : Identities := .empty
  /-- The stamps of committed versions. -/
  stamps : StampTable := .empty
  /-- The origins of paths. -/
  lineage : Lineage := .empty
  /-- The declared schemas of assemblages. -/
  schemas : Table Nid Schema := .empty
  /-- The history of each component. -/
  histories : Table Nid History := .empty
  /-- The indices over semantics. -/
  index : Index := .empty
deriving DecidableEq, Repr

namespace Store

/-- The store without components. -/
def empty : Store := {}

/-! ## Reading -/

/-- The number of components with a history. -/
def size (s : Store) : Nat :=
  s.histories.size

/-- Whether there is no component. -/
def isEmpty (s : Store) : Bool :=
  s.histories.isEmpty

/-- Whether a component has a history. -/
def contains (s : Store) (nid : Nid) : Bool :=
  s.histories.contains nid

/-- The components with a history. -/
def components (s : Store) : List Nid :=
  s.histories.keys

/-- The history of a component. -/
def history (s : Store) (nid : Nid) : Except Error History :=
  match s.histories.get? nid with
  | some h => .ok h
  | none => .error (.unknownIdentifier nid)

/-- The versions of a component: the committed ones, then the drafts. -/
def entries (s : Store) (nid : Nid) : Except Error (List Entry) :=
  (s.history nid).map History.entries

/-- The declared schema of an assemblage. -/
def schema (s : Store) (assemblage : Nid) : Except Error Schema :=
  match s.schemas.get? assemblage with
  | some schema => .ok schema
  | none => .error (.unknownAssemblage assemblage)

/-- The semantics of an assemblage. -/
def semanticsOf (s : Store) (assemblage : Nid) : NidSet :=
  s.index.ofAssemblage assemblage

/-- The semantics of an assemblage about a component. -/
def semanticsAbout (s : Store) (assemblage referenced : Nid) : NidSet :=
  s.index.referencing assemblage referenced

/-- The semantics that hold a component number in a field. -/
def semanticsHolding (s : Store) (value : Nid) : NidSet :=
  s.index.holding value

/-! ## Actions -/

/-- A computation that may change a store and may be refused. -/
abbrev Action (α : Type) : Type :=
  ExceptT Error (StateM Store) α

/-- The answer of an action on a store, and the store after it. -/
def Action.perform {α : Type} (a : Action α) (s : Store) : Except Error α × Store :=
  a.run.run s

/-- Does to the identities what may be done to them. -/
def onIdentities {α : Type} (f : Identities → Except Error (α × Identities)) : Action α := do
  let s ← get
  let (a, identities) ← f s.identities
  set { s with identities }
  return a

/-- The number of a stamp, which is interned if it was not. -/
def intern (stamp : Stamp) : Action StampSeq := do
  let s ← get
  let (seq, stamps) ← s.stamps.intern stamp
  set { s with stamps }
  return seq

/-- Keeps a history in place of the one that a component had. -/
def putHistory (nid : Nid) (h : History) : Action Unit :=
  modify fun s => { s with histories := s.histories.insert nid h }

/-- The same store with indices that are made anew from the histories. -/
def rebuildIndex (s : Store) : Store :=
  { s with index := s.histories.entries.foldl (fun i (_, h) => i.fileHistory h) .empty }

/-! ## Assemblages and paths -/

/-- Declares the schema of an assemblage. Declaring it again changes nothing, and
    is refused if the schema is another. -/
def installSchema (assemblage : Nid) (schema : Schema) : Action Schema := do
  let s ← get
  match s.schemas.get? assemblage with
  | some held =>
    if held = schema then return held
    else throw (.invalidOperation (.otherSchema assemblage))
  | none =>
    set { s with schemas := s.schemas.insert assemblage schema }
    return schema

/-- Declares the schema of a component that serves as an assemblage. -/
def defineAssemblage (assemblage : Nid) (schema : Schema) : Action Schema := do
  if (← get).identities.contains assemblage then installSchema assemblage schema
  else throw (.unknownIdentifier assemblage)

/-- Refuses components that are no concepts. -/
def checkConcepts (ids : Identities) : List Nid → Except Error Unit
  | [] => .ok ()
  | nid :: rest =>
    match ids.kindOf nid with
    | .error e => .error e
    | .ok .concept => checkConcepts ids rest
    | .ok .semantic => .error (.invalidOperation (.notConcept nid))

/-- Declares a concept as a path, with origins that are concepts too. -/
def declarePath (path : Nid) (origins : List Origin) : Action Unit := do
  let s ← get
  checkConcepts s.identities (path :: origins.map Origin.path)
  let lineage ← s.lineage.declare path origins
  set { s with lineage }

end Store

end Bitemporal
