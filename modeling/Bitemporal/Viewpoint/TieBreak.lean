import Bitemporal.Distinct
import Bitemporal.Error

/-!
# Orders of tie-break rules

The rules that choose between paths are applied in an order in which no rule
appears twice. There may be rules that do not appear.
-/

namespace Bitemporal

/-- An order of tie-break rules. -/
structure TieBreakOrder where
  /-- The rules, in the order of their application. -/
  rules : List TieBreak
  /-- No rule appears twice. -/
  nodup_rules : rules.Nodup
deriving DecidableEq, Repr

namespace TieBreakOrder

/-- Path specificity, then module priority. -/
def standard : TieBreakOrder := ⟨[.pathSpecificity, .modulePriority], by decide⟩

instance : Inhabited TieBreakOrder := ⟨standard⟩

/-- The order of the rules of a list, refused if one appears twice. -/
def ofRules (rules : List TieBreak) : Except Error TieBreakOrder :=
  match h : firstRepeated? rules with
  | some rule => .error (.settings (.repeatedTieBreak rule))
  | none => .ok ⟨rules, firstRepeated?_eq_none_iff.1 h⟩

end TieBreakOrder

end Bitemporal
