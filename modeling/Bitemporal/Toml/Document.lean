import Bitemporal.Toml.Number
import Bitemporal.Toml.Value

/-!
# Documents

A TOML document is a list of lines. A line is empty, assigns a value to a key in
the table that is open, or opens a table by a header. A document is read to its
end or not at all (`Toml.parse`): a key that appears twice, a table that is opened
twice, and a table that is extended where it is closed make it unreadable.

Arrays and tables in braces may be nested, and keys may have parts, to less than
`Toml.depthLimit`.
-/

namespace Bitemporal.Toml

open Bitemporal.Toml.Parser

/-- The depth that nested values and dotted keys must not reach. -/
def depthLimit : Nat := 80

/-! ## Keys and values -/

/-- Whether a character can stand in a key without quotes. -/
def isBareChar (c : Char) : Bool :=
  c.isAlphanum || c = '-' || c = '_'

/-- One part of a key. -/
def keyPart : Parser String := do
  blanks
  let part ← basicText <|> literalText <|> bare
  blanks
  return part
where
  /-- A part without quotes. -/
  bare : Parser String := do
    return String.ofList (← many1 (satisfy isBareChar))

/-- A dotted key. -/
def key : Parser (List String) := do
  let parts ← separated1 keyPart (char '.')
  if parts.length < depthLimit then return parts else failure

/-- A value that is no array and no table. -/
def scalar : Parser Value :=
  text <|> number <|> truth
where
  /-- A quoted text. -/
  text : Parser Value := do
    return .string (← quotedText)
  /-- A date or a number. -/
  number : Parser Value :=
    (do datetime; return .datetime) <|> (do float; return .float) <|>
      (do return .integer (← integer))
  /-- A truth value. -/
  truth : Parser Value :=
    (do literal "true".toList; return .boolean true) <|>
      (do literal "false".toList; return .boolean false)

/-- An array of items. -/
def array (item : Parser Value) : Parser Value := do
  char '['
  let items ← Parser.optional do
    let items ← separated1 spaced (char ',')
    let _ ← Parser.optional (char ',')
    return items
  gap
  char ']'
  return .array (items.getD [])
where
  /-- An item with the gaps around it. -/
  spaced : Parser Value := do
    gap
    let v ← item
    gap
    return v

/-- A key and its value. -/
def assignment (item : Parser Value) : Parser (List String × Value) := do
  let parts ← key
  char '='
  blanks
  return (parts, ← item)

/-- The entries with a value under a key that has at least one part. -/
def assignParts (parts : List String) (value : Value) (opening : Opening) (entries : Entries) :
    Option (Opening × Entries) := do
  entries.assign parts.dropLast (← parts.getLast?) value opening

/-- A table in braces. -/
def bracedTable (item : Parser Value) : Parser Value := do
  char '\x7b'
  let pairs ← Parser.optional (separated1 spaced (char ','))
  blanks
  char '\x7d'
  match (pairs.getD []).foldlM add [] with
  | some entries => return .table .braces entries
  | none => failure
where
  /-- A key and its value, with the blanks after it. -/
  spaced : Parser (List String × Value) := do
    let pair ← assignment item
    blanks
    return pair
  /-- The entries with one more assignment. -/
  add (entries : Entries) (pair : List String × Value) : Option Entries :=
    (assignParts pair.1 pair.2 .braces entries).map Prod.snd

/-- A value inside of which values are nested to a depth of less than `depth`. -/
def value : (depth : Nat) → Parser Value
  | 0 => scalar
  | depth + 1 => array (value depth) <|> bracedTable (value depth) <|> scalar

/-! ## Lines -/

/-- What a line does. -/
inductive Line where
  /-- Nothing. -/
  | empty
  /-- It gives a value to a key. -/
  | assign (key : List String) (value : Value)
  /-- It opens a table. -/
  | header (key : List String)
  /-- It opens one more table of an array of tables. -/
  | element (key : List String)

/-- A line. -/
def line : Parser Line :=
  blank <|> element <|> header <|> assign
where
  /-- A line without contents. -/
  blank : Parser Line := do
    (do comment; lineEndOrEof) <|> lineEnd
    return .empty
  /-- The header of one more table of an array. -/
  element : Parser Line := do
    literal ['[', '[']
    let parts ← key
    literal [']', ']']
    lineRest
    return .element parts
  /-- The header of a table. -/
  header : Parser Line := do
    char '['
    let parts ← key
    char ']'
    lineRest
    return .header parts
  /-- A key and its value. -/
  assign : Parser Line := do
    -- the value itself is one level of the nesting
    let (parts, value) ← assignment (value (depthLimit - 1))
    lineRest
    return .assign parts value

/-- All lines. -/
def lines : Parser (List Line) := do
  -- a byte order mark may stand before everything else
  let _ ← Parser.optional (char '\ufeff')
  blanks
  let ls ← many do
    let l ← line
    blanks
    return l
  eof
  return ls

/-! ## Building the document -/

/-- A document that is being read. -/
structure Draft where
  /-- The entries of the outermost table. -/
  root : Entries := []
  /-- The key of the table that is open. -/
  current : List String := []

namespace Draft

/-- The draft after a header for the table with the given key. -/
def openWith (d : Draft) (parts : List String) (opened : String → Entries → Option Entries) :
    Option Draft := do
  let last ← parts.getLast?
  let (_, root) ← d.root.alongHeader
    (fun opening entries => (opened last entries).map fun entries => (opening, entries))
    .header parts.dropLast
  return { root, current := parts }

/-- The draft after a line. -/
def apply (d : Draft) : Line → Option Draft
  | .empty => some d
  | .assign parts value => do
    let (_, root) ← d.root.alongHeader (assignParts parts value) .header d.current
    return { d with root }
  | .header parts => d.openWith parts Entries.openTable
  | .element parts => d.openWith parts Entries.openElement

end Draft

/-- The entries of a document. -/
def parse (text : String) : Option Entries := do
  let (ls, _) ← (lines.run text.toList : Option (List Line × List Char))
  let d ← ls.foldlM Draft.apply {}
  return d.root

end Bitemporal.Toml
