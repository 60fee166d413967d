/-!
# Names of choices

When several paths contribute a candidate, a viewpoint applies tie-break rules
in a configured order; a taxonomy follows a configured policy on edges that stay
contradicted. Both choices are named in the settings of a database.
-/

namespace Bitemporal

/-- A rule that chooses between candidates from several paths. -/
inductive TieBreak where
  /-- A path wins over the paths that it originates from. -/
  | pathSpecificity
  /-- A module wins over the modules that the filter lists after it. -/
  | modulePriority
deriving DecidableEq, Repr, Inhabited

namespace TieBreak

/-- The name of a rule in the settings. -/
def name : TieBreak → String
  | .pathSpecificity => "path_specificity"
  | .modulePriority => "module_priority"

/-- The rule that a name stands for. -/
def ofName? (name : String) : Option TieBreak :=
  [pathSpecificity, modulePriority].find? fun rule => rule.name = name

instance : ToString TieBreak := ⟨name⟩

end TieBreak

/-- What an edge with contradicting versions contributes to a taxonomy. -/
inductive ContradictionPolicy where
  /-- The edges of all its versions. -/
  | includeAll
  /-- Nothing. -/
  | exclude
deriving DecidableEq, Repr, Inhabited

namespace ContradictionPolicy

/-- The name of a policy in the settings. -/
def name : ContradictionPolicy → String
  | .includeAll => "include"
  | .exclude => "exclude"

/-- The policy that a name stands for. -/
def ofName? (name : String) : Option ContradictionPolicy :=
  [includeAll, exclude].find? fun policy => policy.name = name

instance : ToString ContradictionPolicy := ⟨name⟩

end ContradictionPolicy

end Bitemporal
