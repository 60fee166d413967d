import Bitemporal.Error
import Bitemporal.Record.Stamps
import Bitemporal.Table

/-!
# Interned stamps

The stamps of committed versions are interned: the same stamp gets the same
number, and the numbers count from one without gaps. A table keeps the numbers
under their stamps, and the stamps as a list, in which number `n` stands at place
`n - 1`. Both are written together (`StampTable.add`), and nothing reads the one to
check the other.

A table is refilled from the rows of a record. A row is accepted if it repeats
what the table says or continues it; the first row that does neither stops the
refilling, and the rows before it stay (`StampTable.restore`).
-/

namespace Bitemporal

/-- The interned stamps. -/
structure StampTable where
  /-- The number of each stamp. -/
  byStamp : Table Stamp StampSeq := .empty
  /-- The stamps, in the order of their numbers. -/
  stamps : List Stamp := []
deriving DecidableEq, Repr, Inhabited

namespace StampTable

/-- The table without stamps. -/
def empty : StampTable := {}

/-- The number of interned stamps. -/
def size (t : StampTable) : Nat :=
  t.stamps.length

/-- Whether nothing is interned. -/
def isEmpty (t : StampTable) : Bool :=
  t.stamps.isEmpty

/-- The number that belongs to a place of the list. -/
def seqOfPlace (place : Nat) : StampSeq :=
  ⟨UInt32.ofNat (place + 1)⟩

/-- The number of a stamp: the latest one, if a record gave it several. -/
def seq? (t : StampTable) (stamp : Stamp) : Option StampSeq :=
  t.byStamp.get? stamp

/-- The stamp with a number. -/
def stamp (t : StampTable) (seq : StampSeq) : Except Error Stamp :=
  if seq.val = 0 then .error (.unknownStampSeq seq)
  else
    match t.stamps[seq.val.toNat - 1]? with
    | some stamp => .ok stamp
    | none => .error (.unknownStampSeq seq)

/-- The table with one more stamp, which gets a number. -/
def add (t : StampTable) (stamp : Stamp) (seq : StampSeq) : StampTable where
  byStamp := t.byStamp.insert stamp seq
  stamps := t.stamps ++ [stamp]

/-- The table with one more stamp, which gets the number of its place. -/
def push (t : StampTable) (stamp : Stamp) : StampTable :=
  t.add stamp (seqOfPlace t.size)

/-- The number of a stamp, which is interned if it was not. -/
def intern (t : StampTable) (stamp : Stamp) : Except Error (StampSeq × StampTable) :=
  if stamp.isUncommitted then .error .uncommittedStamp
  else
    match t.seq? stamp with
    | some seq => .ok (seq, t)
    | none => .ok (seqOfPlace t.size, t.push stamp)

/-- The interned stamps with their numbers. -/
def rows (t : StampTable) : List Record.StampRow :=
  t.stamps.zipIdx.map fun (stamp, place) => { seq := seqOfPlace place, stamp }

/-- The table after one row of a record. -/
def restoreRow (t : StampTable) (row : Record.StampRow) : Except Error StampTable :=
  if row.seq.val = 0 then .error (.unknownStampSeq row.seq)
  else
    let place := row.seq.val.toNat - 1
    match t.stamps[place]? with
    | some held =>
      if held = row.stamp then .ok t
      else .error (.corruption (.stampConflict row.seq held row.stamp))
    | none =>
      -- only the row right after the last one continues the table
      if place = t.size then
        if row.stamp.isUncommitted then .error .uncommittedStamp
        else .ok (t.add row.stamp row.seq)
      else .error (.corruption (.stampGap (t.size + 1) row.seq))

/-- The table after the rows of a record, up to the first that is refused. -/
def restore (t : StampTable) : List Record.StampRow → Except Error Unit × StampTable
  | [] => (.ok (), t)
  | row :: rest =>
    match t.restoreRow row with
    | .error e => (.error e, t)
    | .ok t' => t'.restore rest

end StampTable

end Bitemporal
