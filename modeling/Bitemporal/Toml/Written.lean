import Bitemporal.Digits

/-!
# Writing texts

There are four forms of quotes: `"` and `'`, once for a text of one line and three
times for a text of any lines. In `"` a backslash escapes what follows it, in `'`
everything stands as it is. A text is written in the first form that shows it without
escapes: once before three times, and `"` before `'`. If there is none, then it is
written in `"` with escapes.
-/

namespace Bitemporal.Toml

/-- A form of quotes. -/
structure Quoting where
  /-- Whether a backslash escapes what follows it: it does in `"`, not in `'`. -/
  escaping : Bool
  /-- Whether there are three quotes on each side. -/
  long : Bool

/-- Whether a character can only be written by its escape. -/
def isControl (c : Char) : Bool :=
  c ≠ '\t' && c ≠ '\n' && (c.toNat < 0x20 || c.toNat = 0x7F)

/-- Whether `n` quotes stand in a row. -/
def hasRun (n : Nat) (quote : Char) : List Char → Bool
  | [] => n = 0
  | c :: cs => (List.replicate n quote).isPrefixOf (c :: cs) || hasRun n quote cs

namespace Quoting

variable (q : Quoting)

/-- The quote. -/
def quote : Char :=
  if q.escaping then '"' else '\''

/-- The quotes on each side of a text. -/
def delimiter : List Char :=
  List.replicate (if q.long then 3 else 1) q.quote

/-- How many quotes may stand in a row within a text: fewer than close it, and none
    within a text of one line. -/
def limit : Nat :=
  if q.long then 2 else 0

/-- Whether a character other than a quote stands for itself. -/
def isPlain (c : Char) : Bool :=
  !isControl c && (q.long || c ≠ '\n') && !(q.escaping && c = '\\')

/-- Whether a text needs no escapes. -/
def shows (cs : List Char) : Bool :=
  cs.all q.isPlain && !hasRun (q.limit + 1) q.quote cs

/-- The escape of a character other than `"`. Line feeds stay as they are in a long
    text, and a tab has its escape in either. -/
def escaped (c : Char) : List Char :=
  if c = '\x08' then ['\\', 'b']
  else if c = '\t' then ['\\', 't']
  else if c = '\n' then (if q.long then ['\n'] else ['\\', 'n'])
  else if c = '\x0c' then ['\\', 'f']
  else if c = '\r' then ['\\', 'r']
  else if c = '\\' then ['\\', '\\']
  else if isControl c then '\\' :: 'u' :: (Hex.digits 4 c.toNat).map Char.toUpper
  else [c]

/-- A text with escapes, after a number of `"` that stand as they are: a quote is
    escaped if as many as may do stand before it. -/
def escapedAfter : (quotes : Nat) → List Char → List Char
  | _, [] => []
  | quotes, c :: cs =>
    if c ≠ '"' then q.escaped c ++ escapedAfter 0 cs
    else if quotes < q.limit then c :: escapedAfter (quotes + 1) cs
    else '\\' :: c :: escapedAfter 0 cs

/-- A text in its quotes. A text of several lines begins on a line of its own: the
    line feed after the quotes is not part of it. -/
def write (cs : List Char) : List Char :=
  let body := if q.escaping then q.escapedAfter 0 cs else cs
  let lineEnd := if q.long && cs.contains '\n' then ['\n'] else []
  q.delimiter ++ lineEnd ++ body ++ q.delimiter

/-- The forms, the preferred ones first. -/
def preferences : List Quoting :=
  [⟨true, false⟩, ⟨false, false⟩, ⟨true, true⟩, ⟨false, true⟩]

/-- The form for a text: the first that shows it without escapes, and else `"`, three
    times if the text has several lines. -/
def choose (cs : List Char) : Quoting :=
  (preferences.find? (·.shows cs)).getD ⟨true, cs.contains '\n'⟩

end Quoting

/-- A text as a value of a document. -/
def writeText (text : String) : String :=
  let cs := text.toList
  String.ofList ((Quoting.choose cs).write cs)

/-- An array of texts: on one line if there is at most one, and else with a line for
    each. -/
def writeTexts : List String → String
  | [] => "[]"
  | [text] => "[" ++ writeText text ++ "]"
  | texts => "[\n" ++ String.join (texts.map fun text => "    " ++ writeText text ++ ",\n") ++ "]"

end Bitemporal.Toml
