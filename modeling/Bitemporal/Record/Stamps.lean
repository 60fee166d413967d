import Bitemporal.Record.Envelope
import Bitemporal.Stamp

/-!
# The record of stamps

Every interned stamp with its number, in 25 octets per row.
-/

namespace Bitemporal.Record

/-- One interned stamp. -/
structure StampRow where
  /-- Its number. -/
  seq : StampSeq
  /-- The stamp. -/
  stamp : Stamp
deriving DecidableEq, Repr, Inhabited

namespace StampRow

/-- The octets of a row. -/
def encode (row : StampRow) : List UInt8 :=
  LittleEndian.ofUInt32 row.seq.val ++ row.stamp.status.tag ::
    (LittleEndian.ofInt64 row.stamp.time.millis ++ LittleEndian.ofInt32 row.stamp.author.val ++
      LittleEndian.ofInt32 row.stamp.module.val ++ LittleEndian.ofInt32 row.stamp.path.val)

/-- Reads a row. -/
def read : Reader Fault StampRow := do
  let seq ← Reader.uint32
  let status ← readTag .status Status.ofTag?
  let millis ← Reader.int64
  let author ← readNid
  let module ← readNid
  let path ← readNid
  return { seq := ⟨seq⟩, stamp := { status, time := ⟨millis⟩, author, module, path } }

end StampRow

/-- The octets of a record of stamps. -/
def encodeStamps (rows : List StampRow) : List UInt8 :=
  wrap stampsMagic (LittleEndian.octets 4 rows.length ++ rows.flatMap StampRow.encode)

/-- Reads the body of a record of stamps. -/
def readStamps : Reader Fault (List StampRow) := do
  let count ← Reader.uint32
  Reader.times count.toNat StampRow.read

/-- The rows of a record of stamps. -/
def decodeStamps (octets : List UInt8) : Except Fault (List StampRow) :=
  unwrap stampsMagic readStamps octets

end Bitemporal.Record
