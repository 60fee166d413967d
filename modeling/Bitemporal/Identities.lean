import Bitemporal.Distinct
import Bitemporal.Error
import Bitemporal.Table

/-!
# Identities

Outside a store a component is known by a set of universally unique identifiers;
inside it has a number. `Identities` is the map between the two, with the kind
and the sequence number of each component.

A number is handed out when none of the identifiers asked for is known
(`Identities.nidFor`). If some are, they must all belong to one component, and
its number is the answer; the others are not added to it. A mapping that was made
elsewhere is installed by `Identities.restore`, which moves the counter past its
number, so that the number is not handed out again.

The counter is a 32-bit word that wraps around when it counts past its end, and
stops there when it is moved by a restored mapping.
-/

namespace Bitemporal

/-- The map between identifiers and numbers of components. -/
structure Identities where
  /-- The component of each identifier. -/
  owners : Table Uuid Nid := .empty
  /-- The identifiers of each component, in the order in which they were given. -/
  uuids : Table Nid (List Uuid) := .empty
  /-- The kind of each component, with its number among its kind. -/
  kinds : Table Nid (Kind × SequenceNumber) := .empty
  /-- The concepts, by sequence number. -/
  concepts : List Nid := []
  /-- The semantics, by sequence number. -/
  semantics : List Nid := []
  /-- The number that is handed out next. -/
  next : Nid := .first
deriving DecidableEq, Repr

namespace Identities

/-- The map that knows no component. -/
def empty : Identities := {}

/-- The number of components. -/
def size (ids : Identities) : Nat :=
  ids.uuids.size

/-- Whether no component is known. -/
def isEmpty (ids : Identities) : Bool :=
  ids.uuids.isEmpty

/-- Whether a number belongs to a component. -/
def contains (ids : Identities) (nid : Nid) : Bool :=
  ids.uuids.contains nid

/-! ## Looking up -/

/-- The component of an identifier. -/
def nidOf? (ids : Identities) (uuid : Uuid) : Option Nid :=
  ids.owners.get? uuid

/-- The component to which all known identifiers of a list belong, given that
    those before it belong to `found`. -/
def ownerFrom (ids : Identities) (found : Option Nid) : List Uuid → Except Error (Option Nid)
  | [] => .ok found
  | uuid :: rest =>
    match found, ids.nidOf? uuid with
    | found, none => ids.ownerFrom found rest
    | none, some nid => ids.ownerFrom (some nid) rest
    | some first, some nid =>
      if first = nid then ids.ownerFrom (some nid) rest
      else .error (.invalidOperation (.uuidsSpan first nid))

/-- The component to which all known identifiers of a list belong. -/
def owner? (ids : Identities) (uuids : List Uuid) : Except Error (Option Nid) :=
  ids.ownerFrom none uuids

/-- The identifiers of a component. -/
def uuidsOf (ids : Identities) (nid : Nid) : Except Error (List Uuid) :=
  match ids.uuids.get? nid with
  | some uuids => .ok uuids
  | none => .error (.unknownIdentifier nid)

/-- The kind of a component. -/
def kindOf (ids : Identities) (nid : Nid) : Except Error Kind :=
  match ids.kinds.get? nid with
  | some (kind, _) => .ok kind
  | none => .error (.unknownIdentifier nid)

/-- The number of a component among its kind. -/
def sequenceOf (ids : Identities) (nid : Nid) : Except Error SequenceNumber :=
  match ids.kinds.get? nid with
  | some (_, seq) => .ok seq
  | none => .error (.unknownIdentifier nid)

/-- The components of a kind, by sequence number. -/
def ofKind (ids : Identities) : Kind → List Nid
  | .concept => ids.concepts
  | .semantic => ids.semantics

/-- The component with a sequence number of a kind. -/
def nidAt? (ids : Identities) (kind : Kind) (seq : SequenceNumber) : Option Nid :=
  (ids.ofKind kind)[seq.val.toNat]?

/-! ## Growing -/

/-- The map with `nid` for every identifier of a list. -/
def assign (owners : Table Uuid Nid) (nid : Nid) (uuids : List Uuid) : Table Uuid Nid :=
  uuids.foldl (fun owners uuid => owners.insert uuid nid) owners

/-- The map with the given identifiers under a number. -/
def bind (ids : Identities) (nid : Nid) (uuids : List Uuid) : Identities :=
  { ids with owners := assign ids.owners nid uuids, uuids := ids.uuids.insert nid uuids }

/-- The number of the component that has one of the given identifiers, or the
    next number, which then has them all. -/
def nidFor (ids : Identities) (uuids : List Uuid) : Except Error (Nid × Identities) :=
  if uuids.isEmpty then .error (.invalidOperation .emptyUuidSet)
  else
    match ids.owner? uuids with
    | .error e => .error e
    | .ok (some nid) => .ok (nid, ids)
    | .ok none => .ok (ids.next, { ids.bind ids.next (distinct uuids) with next := ids.next.next })

/-- The next number, for an identifier that was made for it. -/
def allocate (ids : Identities) (fresh : Uuid) : Nid × Identities :=
  (ids.next, { ids.bind ids.next [fresh] with next := ids.next.next })

/-- The map with one more component of a kind. -/
def enlist (ids : Identities) (nid : Nid) (kind : Kind) : SequenceNumber × Identities :=
  let seq : SequenceNumber := ⟨UInt32.ofNat (ids.ofKind kind).length⟩
  let ids := { ids with kinds := ids.kinds.insert nid (kind, seq) }
  match kind with
  | .concept => (seq, { ids with concepts := ids.concepts ++ [nid] })
  | .semantic => (seq, { ids with semantics := ids.semantics ++ [nid] })

/-- The sequence number of a component of a kind, which it is given if its kind
    was not known. -/
def registerKind (ids : Identities) (nid : Nid) (kind : Kind) :
    Except Error (SequenceNumber × Identities) :=
  if ids.contains nid then
    match ids.kinds.get? nid with
    | none => .ok (ids.enlist nid kind)
    | some (registered, seq) =>
      if registered = kind then .ok (seq, ids)
      else .error (.invalidOperation (.otherKind nid registered kind))
  else .error (.unknownIdentifier nid)

/-- Installs identifiers under the number that they had elsewhere. -/
def restoreUuids (ids : Identities) (nid : Nid) (uuids : List Uuid) : Except Error Identities :=
  match ids.owner? uuids with
  | .error e => .error e
  | .ok (some owner) =>
    if owner = nid then .ok ids else .error (.invalidOperation (.uuidsTaken nid owner))
  | .ok none =>
    if ids.contains nid then .error (.invalidOperation (.nidTaken nid))
    else .ok (ids.bind nid uuids)

/-- Installs a mapping that was made elsewhere. A kind that contradicts the known
    one is refused after the identifiers have been installed. -/
def restore (ids : Identities) (nid : Nid) (uuids : List Uuid) (kind : Kind) :
    Except Error SequenceNumber × Identities :=
  match ids.restoreUuids nid uuids with
  | .error e => (.error e, ids)
  | .ok ids =>
    -- the counter moves on even if the kind is refused below
    let ids := { ids with next := max ids.next nid.nextSaturating }
    match ids.registerKind nid kind with
    | .error e => (.error e, ids)
    | .ok (seq, ids) => (.ok seq, ids)

end Identities

end Bitemporal
