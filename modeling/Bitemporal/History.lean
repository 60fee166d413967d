import Bitemporal.Error
import Bitemporal.Field.Tuple

/-!
# Histories

The history of a component is the list of its committed versions, in the order of
their commits, and nothing in it is ever changed or removed. Commit times do not
decrease along the list.

Every version that is appended, committed or not, takes a *slot*; slots are
numbered from zero. A draft stays in its slot until it is committed. Then the
version goes to the end of the list, and the slot keeps the number of the stamp
that it was committed under, so that a second commit can be told from one of a
slot that never was.

* `History.checkOrder` refuses a commit before the last one;
* `History.appendCommitted`, `History.appendDraft`, `History.replacePayload` and
  `History.commitDraft` are the four ways in which a history grows.
-/

namespace Bitemporal

/-- What a version carries: nothing for a concept, fields for a semantic. -/
inductive Payload where
  | bare
  | fields (tuple : FieldTuple)
deriving DecidableEq, Repr

namespace Payload

/-- The fields of a version of a semantic. -/
def tuple? : Payload → Option FieldTuple
  | .bare => none
  | .fields tuple => some tuple

/-- The octets of a payload, none for a concept. -/
def octets : Payload → List UInt8
  | .bare => []
  | .fields tuple => tuple.octets.toList

end Payload

/-- A committed version. -/
structure Version where
  /-- Its stamp. -/
  stamp : Stamp
  /-- The number under which the stamp is interned. -/
  seq : StampSeq
  /-- What it carries. -/
  payload : Payload
deriving DecidableEq, Repr

/-- A version that is not committed. -/
structure Draft where
  /-- Its stamp, which has no time of its own. -/
  stamp : Stamp
  /-- What it carries. -/
  payload : Payload
deriving DecidableEq, Repr

/-- A version, committed or not. -/
inductive Entry where
  | committed (version : Version)
  | pending (draft : Draft)
deriving DecidableEq, Repr

namespace Entry

/-- The stamp of a version. -/
def stamp : Entry → Stamp
  | .committed version => version.stamp
  | .pending draft => draft.stamp

/-- The number of the stamp of a committed version. -/
def seq? : Entry → Option StampSeq
  | .committed version => some version.seq
  | .pending _ => none

/-- What a version carries. -/
def payload : Entry → Payload
  | .committed version => version.payload
  | .pending draft => draft.payload

end Entry

/-- What became of an appended version. -/
inductive Slot where
  /-- It is still a draft. -/
  | pending (draft : Draft)
  /-- It was committed under the stamp with this number. -/
  | committed (seq : StampSeq)
deriving DecidableEq, Repr

/-- The draft that a slot holds. -/
def Slot.draft? : Slot → Option Draft
  | .pending draft => some draft
  | .committed _ => none

/-- The address of an appended version. -/
structure Handle where
  /-- The component. -/
  nid : Nid
  /-- The slot within its history. -/
  slot : UInt32
deriving DecidableEq, Repr, Inhabited

/-- The versions of one component. -/
structure History where
  /-- The component. -/
  nid : Nid
  /-- What the component is about. -/
  shape : Shape
  /-- The committed versions, oldest first. -/
  committed : List Version := []
  /-- The slots, in the order in which they were taken. -/
  slots : List Slot := []
deriving DecidableEq, Repr

namespace History

/-- The drafts that are not committed, in the order in which they were appended. -/
def pending (h : History) : List Draft :=
  h.slots.filterMap Slot.draft?

/-- All versions: the committed ones, then the drafts. -/
def entries (h : History) : List Entry :=
  h.committed.map .committed ++ h.pending.map .pending

/-- The time of the last commit. -/
def lastTime? (h : History) : Option Timestamp :=
  h.committed.getLast?.map fun v => v.stamp.time

/-- The number that the next slot gets. -/
def nextSlot (h : History) : UInt32 :=
  UInt32.ofNat h.slots.length

/-- Refuses a commit at a time before the last commit. -/
def checkOrder (h : History) (time : Timestamp) : Except Error Unit :=
  match h.lastTime? with
  | some last => if time < last then .error (.timeRegression h.nid last time) else .ok ()
  | none => .ok ()

/-- The draft in a slot. -/
def draft (h : History) (slot : UInt32) : Except Error Draft :=
  match h.slots[slot.toNat]? with
  | some (.pending draft) => .ok draft
  | some (.committed seq) => .error (.alreadyCommitted h.nid seq)
  | none => .error (.unknownVersion h.nid slot)

/-- The draft in a slot, if it can be committed at a time. -/
def checkCommit (h : History) (slot : UInt32) (time : Timestamp) : Except Error Draft := do
  let draft ← h.draft slot
  h.checkOrder time
  return draft

/-- The history with a version that is committed from the start, and its slot. -/
def appendCommitted (h : History) (version : Version) : Except Error (UInt32 × History) := do
  h.checkOrder version.stamp.time
  return (h.nextSlot,
    { h with committed := h.committed ++ [version], slots := h.slots ++ [.committed version.seq] })

/-- The history with one more draft, and its slot. -/
def appendDraft (h : History) (draft : Draft) : UInt32 × History :=
  (h.nextSlot, { h with slots := h.slots ++ [.pending draft] })

/-- The history with another payload for the draft in a slot. -/
def replacePayload (h : History) (slot : UInt32) (payload : Payload) : Except Error History := do
  let draft ← h.draft slot
  return { h with slots := h.slots.set slot.toNat (.pending { draft with payload }) }

/-- The history after the draft in a slot is committed under a stamp, and the
    version that it became. -/
def commitDraft (h : History) (slot : UInt32) (stamp : Stamp) (seq : StampSeq) :
    Except Error (Version × History) := do
  let draft ← h.checkCommit slot stamp.time
  let version : Version := { stamp, seq, payload := draft.payload }
  return (version,
    { h with
      committed := h.committed ++ [version]
      slots := h.slots.set slot.toNat (.committed seq) })

end History

end Bitemporal
