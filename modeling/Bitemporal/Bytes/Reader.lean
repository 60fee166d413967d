/-!
# Reading and writing octets

Integers are written with the least significant octet first
(`LittleEndian.octets`, read back by `LittleEndian.value`).

A `Reader` consumes octets from a `Cursor`, which knows how far it has come. It
fails with the fault of its caller's choosing (`EndOfInput`) when it is asked for
more octets than there are; otherwise the octets taken and those that remain are
the octets that were there.
-/

namespace Bitemporal

namespace LittleEndian

/-- The `width` lowest octets of `n`, the least significant one first. -/
def octets : (width : Nat) → Nat → List UInt8
  | 0, _ => []
  | w + 1, n => UInt8.ofNat n :: octets w (n / 256)

/-- The number that octets stand for. -/
def value : List UInt8 → Nat
  | [] => 0
  | b :: rest => b.toNat + 256 * value rest

@[simp] theorem length_octets (width n : Nat) : (octets width n).length = width := by
  induction width generalizing n with
  | zero => rfl
  | succ w ih => simp [octets, ih]

theorem value_octets (width n : Nat) : value (octets width n) = n % Nat.pow 256 width := by
  induction width generalizing n with
  | zero => exact (Nat.mod_one n).symm
  | succ w ih =>
    have h : (UInt8.ofNat n).toNat = n % 256 := by simp
    have hpow : Nat.pow 256 (w + 1) = 256 * Nat.pow 256 w := Nat.mul_comm _ _
    rw [octets, value, ih, h, hpow, Nat.mod_mul]

theorem octets_value (bytes : List UInt8) : octets bytes.length (value bytes) = bytes := by
  induction bytes with
  | nil => rfl
  | cons b rest ih =>
    have hb := b.toNat_lt
    have h1 : UInt8.ofNat (b.toNat + 256 * value rest) = b := by
      apply UInt8.toNat_inj.1
      simp only [UInt8.toNat_ofNat']
      omega
    have h2 : (b.toNat + 256 * value rest) / 256 = value rest := by omega
    simp only [List.length_cons, octets, value, h1, h2, ih]

/-- The octets of a 16-bit word. -/
def ofUInt16 (x : UInt16) : List UInt8 := octets 2 x.toNat

/-- The octets of a 32-bit word. -/
def ofUInt32 (x : UInt32) : List UInt8 := octets 4 x.toNat

/-- The octets of a 32-bit integer. -/
def ofInt32 (x : Int32) : List UInt8 := ofUInt32 x.toUInt32

/-- The octets of a 64-bit integer. -/
def ofInt64 (x : Int64) : List UInt8 := octets 8 x.toUInt64.toNat

end LittleEndian

/-- A place in a string of octets. -/
structure Cursor where
  /-- The number of octets before it. -/
  position : Nat
  /-- The octets after it. -/
  rest : List UInt8
deriving DecidableEq, Repr

/-- The place before the first octet. -/
def Cursor.start (octets : List UInt8) : Cursor := ⟨0, octets⟩

/-- Faults among which one says that the octets ended too early. -/
class EndOfInput (ε : Type) where
  /-- The octets ended too early. -/
  endOfInput : ε

/-- A computation that consumes octets. -/
abbrev Reader (ε α : Type) : Type :=
  StateT Cursor (Except ε) α

namespace Reader

variable {ε α β : Type}

/-- The number of octets consumed so far. -/
def position : Reader ε Nat := fun c => .ok (c.position, c)

/-- The number of octets that remain. -/
def remaining : Reader ε Nat := fun c => .ok (c.rest.length, c)

/-- The next `n` octets. -/
def take [EndOfInput ε] (n : Nat) : Reader ε (List UInt8) := fun c =>
  let taken := c.rest.take n
  if taken.length = n then .ok (taken, ⟨c.position + n, c.rest.drop n⟩)
  else .error EndOfInput.endOfInput

/-- The next octet. -/
def octet [EndOfInput ε] : Reader ε UInt8 := fun c =>
  match c.rest with
  | [] => .error EndOfInput.endOfInput
  | b :: rest => .ok (b, ⟨c.position + 1, rest⟩)

/-- The next 16-bit word. -/
def uint16 [EndOfInput ε] : Reader ε UInt16 := do
  return UInt16.ofNat (LittleEndian.value (← take 2))

/-- The next 32-bit word. -/
def uint32 [EndOfInput ε] : Reader ε UInt32 := do
  return UInt32.ofNat (LittleEndian.value (← take 4))

/-- The next 32-bit integer. -/
def int32 [EndOfInput ε] : Reader ε Int32 := do
  return (← uint32).toInt32

/-- The next 64-bit integer. -/
def int64 [EndOfInput ε] : Reader ε Int64 := do
  return (UInt64.ofNat (LittleEndian.value (← take 8))).toInt64

/-- Reads one item for each element of a list, in order. The items read before
    are held in reverse. -/
def eachFrom (read : β → Reader ε α) : List β → List α → Cursor → Except ε (List α × Cursor)
  | [], before, c => .ok (before.reverse, c)
  | b :: rest, before, c =>
    match read b c with
    | .error e => .error e
    | .ok (a, c') => eachFrom read rest (a :: before) c'

/-- Reads one item for each element of a list, in order. -/
def each (read : β → Reader ε α) (l : List β) : Reader ε (List α) :=
  eachFrom read l []

/-- Reads `n` items. The items read before are held in reverse. -/
def timesFrom (read : Reader ε α) : Nat → List α → Cursor → Except ε (List α × Cursor)
  | 0, before, c => .ok (before.reverse, c)
  | n + 1, before, c =>
    match read c with
    | .error e => .error e
    | .ok (a, c') => timesFrom read n (a :: before) c'

/-- Reads `n` items. -/
def times (n : Nat) (read : Reader ε α) : Reader ε (List α) :=
  timesFrom read n []

theorem eachFrom_eq (read : β → Reader ε α) (l : List β) (before : List α) (c : Cursor) :
    eachFrom read l before c =
      (eachFrom read l [] c).map fun p => (before.reverse ++ p.1, p.2) := by
  induction l generalizing before c with
  | nil => simp [eachFrom, Except.map]
  | cons b rest ih =>
    simp only [eachFrom]
    cases read b c with
    | error e => rfl
    | ok p =>
      simp only
      rw [ih (p.1 :: before), ih [p.1]]
      cases eachFrom read rest [] p.2 <;> simp [Except.map]

theorem each_nil (read : β → Reader ε α) (c : Cursor) : each read [] c = .ok ([], c) := rfl

/-- The items of a list are those of its first element and then those of the
    others. -/
theorem each_cons (read : β → Reader ε α) (b : β) (l : List β) (c : Cursor) :
    each read (b :: l) c =
      match read b c with
      | .error e => .error e
      | .ok (a, c') => (each read l c').map fun p => (a :: p.1, p.2) := by
  simp only [each, eachFrom]
  cases read b c with
  | error e => rfl
  | ok p =>
    simp only
    rw [eachFrom_eq]
    rfl

theorem timesFrom_eq (read : Reader ε α) (n : Nat) (before : List α) (c : Cursor) :
    timesFrom read n before c =
      (timesFrom read n [] c).map fun p => (before.reverse ++ p.1, p.2) := by
  induction n generalizing before c with
  | zero => simp [timesFrom, Except.map]
  | succ n ih =>
    simp only [timesFrom]
    cases read c with
    | error e => rfl
    | ok p =>
      simp only
      rw [ih (p.1 :: before), ih [p.1]]
      cases timesFrom read n [] p.2 <;> simp [Except.map]

theorem times_zero (read : Reader ε α) (c : Cursor) : times 0 read c = .ok ([], c) := rfl

/-- A number of items is the first one and then the others. -/
theorem times_succ (read : Reader ε α) (n : Nat) (c : Cursor) :
    times (n + 1) read c =
      match read c with
      | .error e => .error e
      | .ok (a, c') => (times n read c').map fun p => (a :: p.1, p.2) := by
  simp only [times, timesFrom]
  cases read c with
  | error e => rfl
  | ok p =>
    simp only
    rw [timesFrom_eq]
    rfl

end Reader

end Bitemporal
