import Bitemporal.Settings
import Bitemporal.Toml.Written

/-!
# Writing settings

Settings are written as a TOML document, which reads back as the same settings.
The document that is written for a new database has comments besides.
-/

namespace Bitemporal.Settings

/-- The document that is written for a new database. -/
def standardText : String :=
  "# Chronicle database configuration\n" ++
  "#\n" ++
  "# Expected number of components, used to pre-size shard maps.\n" ++
  "initial_capacity = 1024\n" ++
  "\n" ++
  "# Tie-break order applied when several paths contribute a candidate.\n" ++
  "# Any permutation of \"path_specificity\" and \"module_priority\".\n" ++
  "tie_break = [\"path_specificity\", \"module_priority\"]\n" ++
  "\n" ++
  "[taxonomy]\n" ++
  "# Zero-based field index holding the child NID in the taxonomy assemblage.\n" ++
  "child_field = 0\n" ++
  "# How the taxonomy engine treats a contradicted edge: \"include\" or \"exclude\".\n" ++
  "contradictions = \"include\"\n"

/-- Whether a number can be written as an integer of a document. -/
def isWritable (n : Nat) : Bool :=
  n < 1 <<< 63

/-- The document of settings. -/
def text (s : Settings) : Except Error String :=
  if isWritable s.initialCapacity && isWritable s.childField then
    .ok (s!"initial_capacity = {s.initialCapacity}\n" ++
      s!"tie_break = {Toml.writeTexts s.tieBreaks}\n" ++
      "\n[taxonomy]\n" ++
      s!"child_field = {s.childField}\n" ++
      s!"contradictions = {Toml.writeText s.contradictions}\n")
  else .error (.settings .unserializable)

end Bitemporal.Settings
