import Bitemporal.Toml.Parser

/-!
# Blanks, comments and quoted text

The lowest level of a TOML document: spaces, line ends and comments, and the four
ways to quote a text. A text in `'` is taken as it is; in a text in `"` a
backslash begins an escape. Three quotes in place of one begin a text of several
lines, from which a line end that follows the opening quotes is dropped; it may
hold up to two of its quotes in a row, also before the closing ones.
-/

namespace Bitemporal.Toml

open Bitemporal.Toml.Parser

/-- Whether a character is a space or a tab. -/
def isBlank (c : Char) : Bool :=
  c = ' ' || c = '\t'

/-- Whether a character can stand in a comment or in a text: a tab, or anything
    that is no control character. -/
def isPrintable (c : Char) : Bool :=
  c = '\t' || (0x20 ≤ c.toNat && c.toNat ≠ 0x7F)

/-- Spaces and tabs, if there are any. -/
def blanks : Parser Unit := do
  let _ ← takeWhile isBlank

/-- The end of a line. -/
def lineEnd : Parser Unit
  | '\n' :: rest => some ((), rest)
  | '\r' :: '\n' :: rest => some ((), rest)
  | _ => none

/-- A comment, without the end of its line. -/
def comment : Parser Unit := do
  char '#'
  let _ ← takeWhile isPrintable

/-- The end of a line or of the document. -/
def lineEndOrEof : Parser Unit :=
  lineEnd <|> eof

/-- What may follow a value or a header on its line. -/
def lineRest : Parser Unit := do
  blanks
  let _ ← Parser.optional comment
  lineEndOrEof

/-- Blanks, line ends and comments, as they may stand between the items of an
    array. -/
def gap : Parser Unit := do
  let _ ← many (blanksSome <|> lineEnd <|> commentLine)
where
  /-- At least one space or tab. -/
  blanksSome : Parser Unit := do
    let _ ← many1 (satisfy isBlank)
  /-- A comment with the end of its line. -/
  commentLine : Parser Unit := do
    comment
    lineEnd

/-! ## Digits -/

/-- The value of a digit to a base up to 16. -/
def digitValue? (base : Nat) (c : Char) : Option Nat :=
  let value :=
    if '0' ≤ c && c ≤ '9' then c.toNat - '0'.toNat
    else if 'a' ≤ c && c ≤ 'f' then c.toNat - 'a'.toNat + 10
    else if 'A' ≤ c && c ≤ 'F' then c.toNat - 'A'.toNat + 10
    else base
  if value < base then some value else none

/-- A digit to a base. -/
def digit (base : Nat) : Parser Nat
  | [] => none
  | c :: rest => (digitValue? base c).map fun value => (value, rest)

/-- The number that digits to a base stand for. -/
def ofDigits (base : Nat) (digits : List Nat) : Nat :=
  digits.foldl (fun n d => n * base + d) 0

/-- Exactly `count` digits. -/
def digits (base : Nat) : (count : Nat) → Parser (List Nat)
  | 0 => pure []
  | n + 1 => do
    let d ← digit base
    return d :: (← digits base n)

/-! ## Quoted text -/

/-- The character with a number, if there is one. -/
def charOfNat? (n : Nat) : Option Char :=
  if n.isValidChar then some (Char.ofNat n) else none

/-- A character given by its number in `count` hexadecimal digits. -/
def numbered (count : Nat) : Parser Char := do
  let ds ← digits 16 count
  match charOfNat? (ofDigits 16 ds) with
  | some c => return c
  | none => failure

/-- A character after a backslash. -/
def escape : Parser Char
  | '\\' :: 'b' :: rest => some ('\x08', rest)
  | '\\' :: 't' :: rest => some ('\t', rest)
  | '\\' :: 'n' :: rest => some ('\n', rest)
  | '\\' :: 'f' :: rest => some ('\x0c', rest)
  | '\\' :: 'r' :: rest => some ('\r', rest)
  | '\\' :: '"' :: rest => some ('"', rest)
  | '\\' :: '\\' :: rest => some ('\\', rest)
  | '\\' :: 'u' :: rest => numbered 4 rest
  | '\\' :: 'U' :: rest => numbered 8 rest
  | _ => none

/-- The rest of a line after a backslash, the line end and all blanks and line
    ends that follow. -/
def continuation : Parser Unit := do
  char '\\'
  blanks
  lineEnd
  let _ ← many ((do let _ ← satisfy isBlank) <|> lineEnd)

/-- A character of a text of one line in `"`. -/
def basicChar : Parser Char :=
  escape <|> satisfy fun c => isPrintable c && c ≠ '"' && c ≠ '\\'

/-- A text of one line in `"`. -/
def basicText : Parser String := do
  char '"'
  let cs ← many basicChar
  char '"'
  return String.ofList cs

/-- A text of one line in `'`. -/
def literalText : Parser String := do
  char '\''
  let cs ← takeWhile fun c => isPrintable c && c ≠ '\''
  char '\''
  return String.ofList cs

/-- A quote that stands for itself in a text of several lines: one that does not
    begin three in a row. -/
def innerQuote (quote : Char) : Parser (List Char)
  | a :: b :: c :: rest =>
    if a = quote && !(b = quote && c = quote) then some ([quote], b :: c :: rest) else none
  | a :: rest => if a = quote then some ([quote], rest) else none
  | [] => none

/-- The closing quotes of a text of several lines, and the quotes of the text
    right before them. -/
def closingQuotes (quote : Char) : Parser (List Char) := do
  literal [quote, quote, quote]
  let more ← Parser.optional (char quote)
  match more with
  | none => return []
  | some () =>
    match ← Parser.optional (char quote) with
    | none => return [quote]
    | some () => return [quote, quote]

/-- A text of several lines with the given quotes, made of the given pieces besides
    quotes and line ends. -/
def longText (quote : Char) (piece : Parser (List Char)) : Parser String := do
  literal [quote, quote, quote]
  let _ ← Parser.optional lineEnd
  let pieces ← many (innerQuote quote <|> lineBreak <|> piece)
  let last ← closingQuotes quote
  return String.ofList (pieces.flatten ++ last)
where
  /-- The end of a line, which stands for one line feed. -/
  lineBreak : Parser (List Char) := do
    lineEnd
    return ['\n']

/-- A text of several lines in `"`. -/
def longBasicText : Parser String :=
  longText '"' (continued <|> single)
where
  /-- A line that is continued on another one. -/
  continued : Parser (List Char) := do
    continuation
    return []
  /-- One character. -/
  single : Parser (List Char) := do
    return [← basicChar]

/-- A text of several lines in `'`. -/
def longLiteralText : Parser String :=
  longText '\'' do return [← satisfy fun c => isPrintable c && c ≠ '\'']

/-- A quoted text. -/
def quotedText : Parser String :=
  longBasicText <|> basicText <|> longLiteralText <|> literalText

end Bitemporal.Toml
