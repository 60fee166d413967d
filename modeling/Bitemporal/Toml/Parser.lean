/-!
# Parsers

A `Toml.Parser` reads something from the front of a list of characters and leaves
the others, or fails. Repetition stops where the repeated parser fails or takes
nothing, so it ends because the list becomes shorter.
-/

namespace Bitemporal.Toml

/-- Reads something from the front of a list of characters. -/
abbrev Parser (α : Type) : Type :=
  StateT (List Char) Option α

namespace Parser

variable {α β : Type}

/-- A character of a class. -/
def satisfy (p : Char → Bool) : Parser Char
  | [] => none
  | c :: rest => if p c then some (c, rest) else none

/-- A given character. -/
def char (c : Char) : Parser Unit
  | [] => none
  | c' :: rest => if c' = c then some ((), rest) else none

/-- Given characters. -/
def literal : List Char → Parser Unit
  | [] => pure ()
  | c :: cs => do
    char c
    literal cs

/-- All characters of a class, up to the first that is not of it. -/
def takeWhile (p : Char → Bool) : Parser (List Char) := fun cs =>
  some (cs.span p)

/-- What a parser reads, or nothing if it fails. -/
def optional (p : Parser α) : Parser (Option α) := fun cs =>
  match p cs with
  | some (a, rest) => some (some a, rest)
  | none => some (none, cs)

/-- What a parser reads again and again, after what it read `before`, which is in
    reverse. -/
def manyFrom (p : Parser α) (before : List α) (cs : List Char) : List α × List Char :=
  match p cs with
  | none => (before.reverse, cs)
  | some (a, rest) =>
    if rest.length < cs.length then manyFrom p (a :: before) rest else (before.reverse, cs)
termination_by cs.length

/-- What a parser reads again and again. -/
def many (p : Parser α) : Parser (List α) := fun cs =>
  some (manyFrom p [] cs)

/-- What a parser reads at least once. -/
def many1 (p : Parser α) : Parser (List α) := do
  let a ← p
  return a :: (← many p)

/-- What a parser reads at least once, with separators between. -/
def separated1 (p : Parser α) (separator : Parser β) : Parser (List α) := do
  let a ← p
  return a :: (← many do
    let _ ← separator
    p)

/-- Succeeds at the end only. -/
def eof : Parser Unit
  | [] => some ((), [])
  | _ :: _ => none

end Parser

end Bitemporal.Toml
