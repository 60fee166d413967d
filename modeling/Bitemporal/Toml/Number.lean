import Bitemporal.Toml.Text

/-!
# Numbers and dates

Numbers may have single underscores between their digits. An integer is decimal
with an optional sign, or hexadecimal, octal or binary without one, and fits into
64 bits. A decimal number with a fraction or an exponent is a floating point
number; it must not be so large that it rounds to positive infinity.

A date has a year of four digits, and a day that its month has; a time of day has
seconds and may have a fraction of them; both together may have an offset.
-/

namespace Bitemporal.Toml

open Bitemporal.Toml.Parser

/-- More digits, each after an optional underscore. -/
def moreDigits (base : Nat) : Parser (List Nat) :=
  many do
    let _ ← Parser.optional (char '_')
    digit base

/-- At least one digit, with single underscores between digits. -/
def spacedDigits (base : Nat) : Parser (List Nat) := do
  let d ← digit base
  return d :: (← moreDigits base)

/-- A sign; the answer is whether it is a minus. -/
def sign : Parser Bool := do
  match ← satisfy fun c => c = '+' || c = '-' with
  | '-' => return true
  | _ => return false

/-- The digits of a decimal integer: a zero alone, or digits that do not begin with
    zero. -/
def decimalDigits : Parser (List Nat) := do
  match ← digit 10 with
  | 0 => return [0]
  | d => return d :: (← moreDigits 10)

/-- A number with an optional sign before its digits. -/
def signedDigits : Parser (Bool × List Nat) := do
  let negative ← Parser.optional sign
  return (negative.getD false, ← decimalDigits)

/-- An integer of 64 bits. -/
def fitting (negative : Bool) (n : Nat) : Parser Int :=
  if negative then (if n ≤ 1 <<< 63 then return -(n : Int) else failure)
  else if n < 1 <<< 63 then return n
  else failure

/-- An integer. -/
def integer : Parser Int
  | '0' :: 'x' :: rest => based 16 rest
  | '0' :: 'o' :: rest => based 8 rest
  | '0' :: 'b' :: rest => based 2 rest
  | cs => decimal cs
where
  /-- The digits of an integer to another base. -/
  based (base : Nat) : Parser Int := do
    let ds ← spacedDigits base
    fitting false (ofDigits base ds)
  /-- A decimal integer. -/
  decimal : Parser Int := do
    let (negative, ds) ← signedDigits
    fitting negative (ofDigits 10 ds)

/-! ## Floating point numbers -/

/-- The exponent of a floating point number. -/
def exponent : Parser Int := do
  let _ ← satisfy fun c => c = 'e' || c = 'E'
  let negative ← Parser.optional sign
  let ds ← spacedDigits 10
  let n : Int := ofDigits 10 ds
  return if negative.getD false then -n else n

/-- The digits after the point of a floating point number. -/
def fraction : Parser (List Nat) := do
  char '.'
  spacedDigits 10

/-- Whether `mantissa * 10 ^ exponent` rounds to infinity in 64 bits: from halfway
    between the greatest finite number and the next power of two on. -/
def isInfinite (mantissa : Nat) (exponent : Int) : Bool :=
  -- the midpoint itself goes to infinity, because the greatest finite number is odd
  let bound := 1 <<< 1024 - 1 <<< 970
  let magnitude := (toString mantissa).length + exponent
  -- far from the bound the number of digits decides, and no large power is computed
  if mantissa = 0 || magnitude < 300 then false
  else if 320 < magnitude then true
  else if 0 ≤ exponent then bound ≤ mantissa * Nat.pow 10 exponent.toNat
  else bound * Nat.pow 10 (-exponent).toNat ≤ mantissa

/-- A decimal number with a fraction or an exponent. -/
def decimalFloat : Parser Unit := do
  let (negative, ds) ← signedDigits
  let (fractionDigits, exponent) ← exponentOnly <|> fractionFirst
  let mantissa := ofDigits 10 (ds ++ fractionDigits)
  if !negative && isInfinite mantissa (exponent - fractionDigits.length) then failure
where
  /-- An exponent without a fraction. -/
  exponentOnly : Parser (List Nat × Int) := do
    return ([], ← exponent)
  /-- A fraction with or without an exponent. -/
  fractionFirst : Parser (List Nat × Int) := do
    let ds ← fraction
    return (ds, (← Parser.optional exponent).getD 0)

/-- One of the numbers that have no digits. -/
def specialFloat : Parser Unit := do
  let _ ← Parser.optional sign
  literal ['i', 'n', 'f'] <|> literal ['n', 'a', 'n']

/-- A floating point number. -/
def float : Parser Unit :=
  decimalFloat <|> specialFloat

/-! ## Dates and times -/

/-- A number of exactly `count` decimal digits between two bounds. -/
def bounded (count low high : Nat) : Parser Nat := do
  let n := ofDigits 10 (← digits 10 count)
  if low ≤ n && n ≤ high then return n else failure

/-- Whether a year has a leap day. -/
def isLeapYear (year : Nat) : Bool :=
  year % 4 = 0 && (year % 100 ≠ 0 || year % 400 = 0)

/-- The number of days of a month. -/
def daysOfMonth (year month : Nat) : Nat :=
  if month = 2 then (if isLeapYear year then 29 else 28)
  else if month = 4 || month = 6 || month = 9 || month = 11 then 30
  else 31

/-- A day. -/
def date : Parser Unit := do
  let year ← bounded 4 0 9999
  char '-'
  let month ← bounded 2 1 12
  char '-'
  let _ ← bounded 2 1 (daysOfMonth year month)

/-- A time of day. -/
def timeOfDay : Parser Unit := do
  let _ ← bounded 2 0 23
  char ':'
  let _ ← bounded 2 0 59
  char ':'
  let _ ← bounded 2 0 60
  let _ ← Parser.optional do
    char '.'
    let _ ← many1 (digit 10)

/-- The offset of a time from universal time. -/
def timeOffset : Parser Unit :=
  (do let _ ← satisfy fun c => c = 'Z' || c = 'z') <|> do
    let _ ← sign
    let _ ← bounded 2 0 23
    char ':'
    let _ ← bounded 2 0 59

/-- A day with or without a time of day, or a time of day alone. -/
def datetime : Parser Unit :=
  dated <|> timeOfDay
where
  /-- A day, which may be followed by a time of day. -/
  dated : Parser Unit := do
    date
    let _ ← Parser.optional do
      let _ ← satisfy fun c => c = 'T' || c = 't' || c = ' '
      timeOfDay
      let _ ← Parser.optional timeOffset

end Bitemporal.Toml
