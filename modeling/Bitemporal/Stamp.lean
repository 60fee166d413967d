import Bitemporal.Nid
import Bitemporal.Timestamp

/-!
# Stamps

A `Stamp` says under which status, when, by whom, in which module and on which
path a version was made. The stamps of committed versions are numbered from one
(`StampSeq`); a stamp without a time of its own marks a draft.
-/

namespace Bitemporal

/-- The standing of a version. -/
inductive Status where
  | active
  | inactive
  | primordial
  | cancelled
deriving DecidableEq, Repr, Inhabited

namespace Status

/-- All statuses, in the order of their tags. -/
def all : List Status := [.active, .inactive, .primordial, .cancelled]

/-- The octet that stands for a status in a record. -/
def tag : Status → UInt8
  | .active => 1
  | .inactive => 2
  | .primordial => 3
  | .cancelled => 4

/-- The status that an octet stands for. -/
def ofTag? (tag : UInt8) : Option Status :=
  all.find? fun s => s.tag = tag

/-- The place of a status in the order of tags, from zero. -/
def index : Status → Nat
  | .active => 0
  | .inactive => 1
  | .primordial => 2
  | .cancelled => 3

/-- The mask of a status in a set of statuses. -/
def mask (s : Status) : BitVec 4 := 1#4 <<< s.index

/-- The name of a status. -/
def name : Status → String
  | .active => "Active"
  | .inactive => "Inactive"
  | .primordial => "Primordial"
  | .cancelled => "Cancelled"

instance : ToString Status := ⟨name⟩

theorem ofTag?_tag (s : Status) : ofTag? s.tag = some s := by
  cases s <;> rfl

end Status

/-- The number of an interned stamp, counted from one. -/
structure StampSeq where
  /-- The number itself. -/
  val : UInt32
deriving DecidableEq, Repr, Inhabited

instance : ToString StampSeq := ⟨fun s => s!"stamp:{s.val.toNat}"⟩

/-- The coordinates of a version. -/
structure Stamp where
  /-- The standing of the version. -/
  status : Status
  /-- The time of its commit. -/
  time : Timestamp
  /-- The component that stands for its author. -/
  author : Nid
  /-- The module that it belongs to. -/
  module : Nid
  /-- The path on which it was made. -/
  path : Nid
deriving DecidableEq, Repr, Inhabited

namespace Stamp

/-- Whether this is the stamp of a draft. -/
def isUncommitted (s : Stamp) : Bool :=
  s.time.isUncommitted

/-- The same coordinates at another time. -/
def withTime (s : Stamp) (time : Timestamp) : Stamp :=
  { s with time }

/-- The text of a stamp. -/
def text (s : Stamp) : String :=
  s!"[{s.status} {s.time} author={s.author} module={s.module} path={s.path}]"

instance : ToString Stamp := ⟨text⟩

end Stamp

end Bitemporal
