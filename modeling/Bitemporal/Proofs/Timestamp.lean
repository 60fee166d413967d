import Bitemporal.Timestamp

/-!
# The order of times

Times are ordered by their milliseconds, and so linearly.
-/

namespace Bitemporal.Timestamp

instance : Std.IsLinearOrder Timestamp where
  le_refl t := Std.le_refl t.millis
  le_trans _ _ _ h h' := Int64.le_trans h h'
  le_antisymm _ _ h h' := ext_toInt (congrArg Int64.toInt (Int64.le_antisymm h h'))
  le_total t t' := Int64.le_total t.millis t'.millis

instance : Std.LawfulOrderLT Timestamp where
  lt_iff t t' := Std.lt_iff_le_and_not_ge (a := t.millis) (b := t'.millis)

instance : Std.LawfulOrderLeftLeaningMin Timestamp where
  min_eq_left _ _ h := if_pos h
  min_eq_right _ _ h := if_neg h

end Bitemporal.Timestamp
