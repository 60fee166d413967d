/-!
# Digits of a fixed width

Numbers written with leading zeros: decimal fields of dates, and hexadecimal
words.
-/

namespace Bitemporal

/-- `n` in decimal, padded with zeros on the left to at least `width` digits. -/
def zeroPadded (width n : Nat) : String :=
  let digits := toString n
  String.ofList (List.replicate (width - digits.length) '0') ++ digits

namespace Hex

/-- The lower-case digit of a number below sixteen. -/
def digit (n : Nat) : Char :=
  if n < 10 then Char.ofNat ('0'.toNat + n) else Char.ofNat ('a'.toNat + (n - 10))

/-- The last `width` digits of `n`, the most significant one first. -/
def digits : (width : Nat) → Nat → List Char
  | 0, _ => []
  | w + 1, n => digits w (n / 16) ++ [digit (n % 16)]

/-- The last `width` digits of `n` as text. -/
def text (width n : Nat) : String :=
  String.ofList (digits width n)

/-- Two digits per octet. -/
def ofOctets (octets : List UInt8) : List Char :=
  octets.flatMap fun b => [digit (b.toNat / 16), digit (b.toNat % 16)]

/-- The number below sixteen that a digit of either case stands for. -/
def digitValue? (c : Char) : Option Nat :=
  if '0' ≤ c ∧ c ≤ '9' then some (c.toNat - '0'.toNat)
  else if 'a' ≤ c ∧ c ≤ 'f' then some (c.toNat - 'a'.toNat + 10)
  else if 'A' ≤ c ∧ c ≤ 'F' then some (c.toNat - 'A'.toNat + 10)
  else none

/-- The octets that pairs of digits stand for, after those held in reverse. -/
def octetsFrom? (before : List UInt8) : List Char → Option (List UInt8)
  | [] => some before.reverse
  | [_] => none
  | high :: low :: rest =>
    match digitValue? high, digitValue? low with
    | some high, some low => octetsFrom? (UInt8.ofNat (16 * high + low) :: before) rest
    | _, _ => none

/-- The octets that pairs of digits stand for. -/
def octets? (text : List Char) : Option (List UInt8) :=
  octetsFrom? [] text

end Hex

end Bitemporal
