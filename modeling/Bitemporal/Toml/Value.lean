/-!
# Values of a settings text

The values of a TOML document. Integers have their value; of the other numbers and
of dates it is only known that they are well formed, which is all that settings
ask of them.

A table knows what opened it, because that decides what may still be added to it.
-/

namespace Bitemporal.Toml

/-- What opened a table. -/
inductive Opening where
  /-- A header of its own, or the beginning of the document. -/
  | header
  /-- The header of a table inside it. -/
  | implied
  /-- A dotted key. -/
  | dotted
  /-- Braces. -/
  | braces
deriving DecidableEq, Repr

/-- A value. -/
inductive Value where
  | string (text : String)
  | integer (value : Int)
  | float
  | boolean (value : Bool)
  | datetime
  /-- A list of values between brackets. -/
  | array (items : List Value)
  /-- A table. -/
  | table (opening : Opening) (entries : List (String × Value))
  /-- The tables of an array that is written with a header for each. -/
  | tables (items : List (List (String × Value)))

/-- The values of a table, by key. -/
abbrev Entries : Type := List (String × Value)

namespace Entries

/-- The value under a key. -/
def find? (key : String) : Entries → Option Value
  | [] => none
  | (k, v) :: rest => if k = key then some v else find? key rest

/-- The entries with another value under a key that is there. -/
def replace (key : String) (value : Value) : Entries → Entries
  | [] => []
  | (k, v) :: rest => if k = key then (key, value) :: rest else (k, v) :: replace key value rest

/-- The entries with one more, unless its key is there. -/
def add? (entries : Entries) (key : String) (value : Value) : Option Entries :=
  match find? key entries with
  | some _ => none
  | none => some (entries ++ [(key, value)])

/-! ## Going down along keys -/

/-- Changes the table that is reached along the keys of a header. Tables on the
    way that are not there are opened; of an array of tables the last one is
    meant. What is in braces is closed. -/
def alongHeader (change : Opening → Entries → Option (Opening × Entries)) (opening : Opening)
    (entries : Entries) : List String → Option (Opening × Entries)
  | [] => change opening entries
  | key :: keys =>
    match find? key entries with
    | none => do
      let (inner, below) ← alongHeader change .implied [] keys
      return (opening, entries ++ [(key, .table inner below)])
    | some (.table .braces _) => none
    | some (.table inner below) => do
      let (inner, below) ← alongHeader change inner below keys
      return (opening, replace key (.table inner below) entries)
    | some (.tables items) => do
      let (_, below) ← alongHeader change .header (← items.getLast?) keys
      return (opening, replace key (.tables (items.dropLast ++ [below])) entries)
    | some _ => none

/-- Changes the table that is reached along a dotted key. Only tables that were
    not opened by a header of their own are gone through. -/
def alongDots (change : Opening → Entries → Option (Opening × Entries)) (opening : Opening)
    (entries : Entries) : List String → Option (Opening × Entries)
  | [] => change opening entries
  | key :: keys =>
    match find? key entries with
    | none => do
      let (inner, below) ← alongDots change .dotted [] keys
      return (opening, entries ++ [(key, .table inner below)])
    | some (.table .implied below) => do
      let (inner, below) ← alongDots change .implied below keys
      return (opening, replace key (.table inner below) entries)
    | some (.table .dotted below) => do
      let (inner, below) ← alongDots change .dotted below keys
      return (opening, replace key (.table inner below) entries)
    | some (.tables items) => do
      let (_, below) ← alongDots change .header (← items.getLast?) keys
      return (opening, replace key (.tables (items.dropLast ++ [below])) entries)
    | some _ => none

/-- The entries with a value under a dotted key, whose last part is `key`. A table
    is extended by dotted keys only if dotted keys opened it. -/
def assign (dots : List String) (key : String) (value : Value) (opening : Opening)
    (entries : Entries) : Option (Opening × Entries) :=
  alongDots (fun inner below =>
    -- without dots the table must not be a dotted one, and with dots it must be
    if inner = .dotted ↔ dots = [] then none
    else (below.add? key value).map fun below => (inner, below)) opening entries dots

/-- The entries with a table under a key, opened by a header. A table can be opened
    so once, and not if dotted keys opened it. -/
def openTable (key : String) (entries : Entries) : Option Entries :=
  match find? key entries with
  | none => some (entries ++ [(key, .table .header [])])
  | some (.table .implied below) => some (replace key (.table .header below) entries)
  | some _ => none

/-- The entries with one more table in the array of tables under a key. -/
def openElement (key : String) (entries : Entries) : Option Entries :=
  match find? key entries with
  | none => some (entries ++ [(key, .tables [[]])])
  | some (.tables items) => some (replace key (.tables (items ++ [[]])) entries)
  | some _ => none

end Entries

end Bitemporal.Toml
