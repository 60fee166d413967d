import Bitemporal.Viewpoint.TieBreak

/-!
# Settings of a database

The settings name the tie-break rules and the contradiction policy; the names are
checked when the settings are put to use (`Settings.validate`).
-/

namespace Bitemporal

/-- The settings of a database. -/
structure Settings where
  /-- The number of components that is expected. -/
  initialCapacity : Nat := 1024
  /-- The names of the tie-break rules, in the order of their application. -/
  tieBreaks : List String := TieBreakOrder.standard.rules.map TieBreak.name
  /-- The position of the field that holds the child of an edge. -/
  childField : Nat := 0
  /-- The name of the policy on contradicting edges. -/
  contradictions : String := ContradictionPolicy.includeAll.name
deriving DecidableEq, Repr, Inhabited

namespace Settings

/-- The settings of a database that says nothing about them. -/
def standard : Settings := {}

/-- The rules that names stand for. -/
def rulesOf : List String → Except Error (List TieBreak)
  | [] => .ok []
  | name :: rest =>
    match TieBreak.ofName? name with
    | none => .error (.settings (.unknownTieBreak name))
    | some rule => (rulesOf rest).map (rule :: ·)

/-- The order of tie-break rules. -/
def tieBreakOrder (s : Settings) : Except Error TieBreakOrder := do
  TieBreakOrder.ofRules (← rulesOf s.tieBreaks)

/-- The policy on contradicting edges. -/
def policy (s : Settings) : Except Error ContradictionPolicy :=
  match ContradictionPolicy.ofName? s.contradictions with
  | some policy => .ok policy
  | none => .error (.settings (.unknownPolicy s.contradictions))

/-- Refuses settings with names that stand for nothing. -/
def validate (s : Settings) : Except Error Unit := do
  let _ ← s.tieBreakOrder
  let _ ← s.policy

end Settings

end Bitemporal
