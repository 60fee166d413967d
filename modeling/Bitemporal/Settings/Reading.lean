import Bitemporal.Settings
import Bitemporal.Toml.Document

/-!
# Reading settings

Settings are read from a TOML document. A key that is not there leaves its setting
as it is in the standard settings, and a key that is not known is passed over. A
known key must have a value of its type.

The settings of taxonomies are a table of their own. A list in its place gives
their values by position, and a date says nothing about them.
-/

namespace Bitemporal.Settings

/-- A number that counts something. -/
def count? : Toml.Value → Option Nat
  | .integer value => if 0 ≤ value then some value.toNat else none
  | _ => none

/-- A text. -/
def text? : Toml.Value → Option String
  | .string text => some text
  | _ => none

/-- A list of texts. -/
def texts? : Toml.Value → Option (List String)
  | .array items => items.mapM text?
  | _ => none

/-- The value of a key, or else what stands in for it. -/
def valueOr {α : Type} (entries : Toml.Entries) (key : String) (read : Toml.Value → Option α)
    (default : α) : Option α :=
  match entries.find? key with
  | some value => read value
  | none => some default

/-- The position of the child field and the policy that a value gives. -/
def taxonomy? : Toml.Value → Option (Nat × String)
  | .table _ entries => do
    return (← valueOr entries "child_field" count? standard.childField,
      ← valueOr entries "contradictions" text? standard.contradictions)
  | .array [] => some (standard.childField, standard.contradictions)
  | .array [field] => do return (← count? field, standard.contradictions)
  | .array (field :: policy :: _) => do return (← count? field, ← text? policy)
  | .datetime => some (standard.childField, standard.contradictions)
  | _ => none

/-- The settings that the entries of a document give. -/
def ofEntries? (entries : Toml.Entries) : Option Settings := do
  let initialCapacity ← valueOr entries "initial_capacity" count? standard.initialCapacity
  let tieBreaks ← valueOr entries "tie_break" texts? standard.tieBreaks
  let (childField, contradictions) ←
    valueOr entries "taxonomy" taxonomy? (standard.childField, standard.contradictions)
  return { initialCapacity, tieBreaks, childField, contradictions }

/-- The settings that a text gives, whether their names stand for something or
    not. -/
def parse? (text : String) : Option Settings := do
  ofEntries? (← Toml.parse text)

/-- The settings that a text gives. -/
def ofText (text : String) : Except Error Settings := do
  match parse? text with
  | none => throw (.settings .malformed)
  | some settings =>
    settings.validate
    return settings

end Bitemporal.Settings
