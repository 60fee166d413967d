import Bitemporal.Bytes.Checksum
import Mathlib.Logic.Function.Iterate

/-!
# Checksums of strings that differ in one octet

The register is never driven from two states to one. The polynomial has its highest bit
set, so after a step the highest bit of the register is the bit that the step pushed out
at the other end (`testBit_shift`): from what a step leaves one can tell what it was taken
from (`shift_injective`). An octet takes eight steps, after it is mixed in, so what it
leaves depends on the register one-to-one, and on the octet one-to-one
(`absorb_left_injective`, `absorb_right_injective`), and the octets that follow never make
up for a difference (`foldl_absorb_injective`). So strings that differ in one octet have
different checksums (`ofOctets_set_ne`).
-/

namespace Bitemporal.Checksum

theorem and_one_eq_one_iff (r : UInt32) : r &&& 1 = 1 ↔ r.toNat % 2 = 1 := by
  rw [← UInt32.toNat_inj, UInt32.toNat_and, UInt32.toNat_one, Nat.and_one_is_mod]

theorem toNat_shiftRight_one (r : UInt32) : (r >>> 1).toNat = r.toNat / 2 := by
  rw [UInt32.toNat_shiftRight, UInt32.toNat_one]
  exact Nat.shiftRight_eq_div_pow _ _

/-- The highest bit after a step is the lowest one before it. -/
theorem testBit_shift (r : UInt32) : (shift r).toNat.testBit 31 = decide (r.toNat % 2 = 1) := by
  have hr := r.toNat_lt
  have hhalf : (r >>> 1).toNat.testBit 31 = false := by
    rw [toNat_shiftRight_one]
    exact Nat.testBit_lt_two_pow (by omega)
  rw [shift, ← decide_eq_decide.2 (and_one_eq_one_iff r)]
  split
  · next hlow =>
    have hpoly : (0xEDB88320 : UInt32).toNat.testBit 31 = true := by decide
    rw [UInt32.toNat_xor, Nat.testBit_xor, hhalf, hpoly, decide_eq_true hlow, Bool.false_xor]
  · next hlow => rw [hhalf, decide_eq_false hlow]

theorem shift_injective : Function.Injective shift := by
  intro r s h
  have hlow : r.toNat % 2 = 1 ↔ s.toNat % 2 = 1 :=
    decide_eq_decide.1 (by rw [← testBit_shift, ← testBit_shift, h])
  -- the same bit was pushed out of both, so the polynomial was mixed into both or neither
  have hhalf : r >>> 1 = s >>> 1 := by
    rw [shift, shift] at h
    simp only [and_one_eq_one_iff, hlow] at h
    split at h
    · exact (UInt32.xor_left_inj _).1 h
    · exact h
  have hhalves := congrArg UInt32.toNat hhalf
  rw [toNat_shiftRight_one, toNat_shiftRight_one] at hhalves
  exact UInt32.toNat_inj.1 (by omega)

theorem absorb_eq_iterate (r : UInt32) (b : UInt8) : absorb r b = shift^[8] (r ^^^ b.toUInt32) :=
  rfl

theorem absorb_left_injective (b : UInt8) : Function.Injective fun r => absorb r b := by
  intro r s h
  simp only [absorb_eq_iterate] at h
  exact (UInt32.xor_left_inj _).1 (shift_injective.iterate 8 h)

theorem absorb_right_injective (r : UInt32) : Function.Injective (absorb r) := by
  intro b c h
  simp only [absorb_eq_iterate] at h
  exact UInt8.toUInt32_inj.1 ((UInt32.xor_right_inj r).1 (shift_injective.iterate 8 h))

theorem foldl_absorb_injective (octets : List UInt8) :
    Function.Injective fun r => octets.foldl absorb r := by
  induction octets with
  | nil => exact Function.injective_id
  | cons b octets ih => exact ih.comp (absorb_left_injective b)

theorem ofOctets_inj {l l' : List UInt8} :
    ofOctets l = ofOctets l' ↔ l.foldl absorb 0xFFFFFFFF = l'.foldl absorb 0xFFFFFFFF :=
  UInt32.xor_left_inj _

/-- Another octet in one place makes another checksum. -/
theorem ofOctets_set_ne {octets : List UInt8} {i : Nat} (hi : i < octets.length) {b : UInt8}
    (hb : b ≠ octets[i]) : ofOctets (octets.set i b) ≠ ofOctets octets := by
  intro h
  have hsplit : octets = octets.take i ++ octets[i] :: octets.drop (i + 1) := by
    rw [List.getElem_cons_drop, List.take_append_drop]
  have hsplit' : octets.set i b = octets.take i ++ b :: octets.drop (i + 1) :=
    List.set_eq_take_append_cons_drop.trans (if_pos hi)
  rw [ofOctets_inj, hsplit'] at h
  conv at h => rhs; rw [hsplit]
  rw [List.foldl_append, List.foldl_append, List.foldl_cons, List.foldl_cons] at h
  exact hb (absorb_right_injective _ (foldl_absorb_injective _ h))

/-- The check value of the code, the checksum of the digits one to nine. -/
example : ofOctets [0x31, 0x32, 0x33, 0x34, 0x35, 0x36, 0x37, 0x38, 0x39] = 0xCBF43926 := by
  decide +kernel

end Bitemporal.Checksum
