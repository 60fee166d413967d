import Bitemporal.Digits

/-!
# Stamp times

A `Timestamp` counts milliseconds from the epoch, 1970-01-01 00:00:00 UTC, in a
signed 64-bit word. The greatest word is no time at all: it marks a draft whose
time has not been assigned (`Timestamp.uncommitted`). The one below it is the
latest time that a committed version can have (`Timestamp.latest`); a reader
standing there sees everything.

Times are written as dates of the proleptic Gregorian calendar
(`Timestamp.text`), which is defined here on the days from the epoch by the
400-year cycle, years being counted from the first of March so that the leap day
comes last.
-/

namespace Bitemporal

/-- A time in milliseconds from the epoch. -/
structure Timestamp where
  /-- The milliseconds. -/
  millis : Int64
deriving DecidableEq, Repr

namespace Timestamp

/-- The first instant of 1970. -/
def epoch : Timestamp := ⟨0⟩

/-- The mark of a draft that has no time yet. -/
def uncommitted : Timestamp := ⟨Int64.maxValue⟩

/-- The latest time of a committed version. -/
def latest : Timestamp := ⟨Int64.maxValue - 1⟩

/-- The earliest time. -/
def earliest : Timestamp := ⟨Int64.minValue⟩

instance : Inhabited Timestamp := ⟨epoch⟩
instance : LT Timestamp := ⟨fun a b => a.millis < b.millis⟩
instance : LE Timestamp := ⟨fun a b => a.millis ≤ b.millis⟩
instance (a b : Timestamp) : Decidable (a < b) := inferInstanceAs (Decidable (a.millis < b.millis))
instance (a b : Timestamp) : Decidable (a ≤ b) := inferInstanceAs (Decidable (a.millis ≤ b.millis))
instance : Min Timestamp := ⟨fun a b => if a ≤ b then a else b⟩

/-- Whether this is the mark of a draft. -/
def isUncommitted (t : Timestamp) : Bool :=
  t = uncommitted

/-- Whether this time is strictly earlier than another. -/
def isBefore (t other : Timestamp) : Bool :=
  t < other

/-- Whether this time is strictly later than another. -/
def isAfter (t other : Timestamp) : Bool :=
  other < t

theorem lt_iff {a b : Timestamp} : a < b ↔ a.millis.toInt < b.millis.toInt :=
  Int64.lt_iff_toInt_lt

theorem le_iff {a b : Timestamp} : a ≤ b ↔ a.millis.toInt ≤ b.millis.toInt :=
  Int64.le_iff_toInt_le

theorem ext_toInt {a b : Timestamp} (h : a.millis.toInt = b.millis.toInt) : a = b := by
  cases a; cases b; simp_all [Int64.toInt_inj]

/-! ## Calendar dates -/

/-- A day of the proleptic Gregorian calendar. -/
structure Date where
  /-- The year, counted astronomically: the year before year 1 is year 0. -/
  year : Int
  /-- The month, from 1 to 12. -/
  month : Nat
  /-- The day of the month, from 1. -/
  day : Nat
deriving DecidableEq, Repr

/-- The date that lies `days` days after 1970-01-01. -/
def Date.ofDays (days : Int) : Date :=
  -- 719468 days lead from the first of March of year 0 to the epoch
  let fromMarch := days + 719468
  let cycle := fromMarch.fdiv 146097
  let dayOfCycle := (fromMarch.fmod 146097).toNat
  -- every fourth year has a day more, the last of a century not, that of the cycle again
  let yearOfCycle :=
    (dayOfCycle - dayOfCycle / 1460 + dayOfCycle / 36524 - dayOfCycle / 146096) / 365
  let dayOfYear := dayOfCycle - (365 * yearOfCycle + yearOfCycle / 4 - yearOfCycle / 100)
  -- from March on, the months have 31, 30, 31, 30 and 31 days, again and again
  let monthFromMarch := (5 * dayOfYear + 2) / 153
  let month := if monthFromMarch < 10 then monthFromMarch + 3 else monthFromMarch - 9
  let year := cycle * 400 + yearOfCycle
  { year := if month ≤ 2 then year + 1 else year
    month
    day := dayOfYear - (153 * monthFromMarch + 2) / 5 + 1 }

/-- The text of a year: at least four digits, with a sign unless it is one of
    the years 0 to 9999. -/
def yearText (year : Int) : String :=
  if year < 0 then "-" ++ zeroPadded 4 year.natAbs
  else if year < 10000 then zeroPadded 4 year.toNat
  else "+" ++ zeroPadded 4 year.toNat

/-- The times that are written as dates. -/
def isDated (millis : Int) : Bool :=
  -8334601228800000 ≤ millis ∧ millis ≤ 8210266876799999

/-- The date and time of day that lie `millis` milliseconds after the epoch. -/
def dateText (millis : Int) : String :=
  let date := Date.ofDays (millis.fdiv 86400000)
  let ofDay := (millis.fmod 86400000).toNat
  let seconds := ofDay / 1000
  let day := s!"{yearText date.year}-{zeroPadded 2 date.month}-{zeroPadded 2 date.day}"
  let minutes := s!"{zeroPadded 2 (seconds / 3600)}:{zeroPadded 2 (seconds / 60 % 60)}"
  s!"{day}T{minutes}:{zeroPadded 2 (seconds % 60)}.{zeroPadded 3 (ofDay % 1000)}Z"

/-- The text of a time: its name for the two greatest words, a date where there
    is one, and else the milliseconds. -/
def text (t : Timestamp) : String :=
  if t = uncommitted then "uncommitted"
  else if t = latest then "latest"
  else if isDated t.millis.toInt then dateText t.millis.toInt
  else s!"{t.millis.toInt}ms"

instance : ToString Timestamp := ⟨text⟩

end Timestamp

end Bitemporal
