import Bitemporal.Proofs.Bytes.Reader
import Bitemporal.Record.Envelope
import Mathlib.Logic.Basic
import Mathlib.Tactic.SplitIfs

/-!
# Wrapped records

A record is unwrapped just when it was wrapped (`unwrap_eq_ok_iff`): if the body of a
record is read in some form, then what is unwrapped from octets is what has a form that
the octets wrap.
-/

namespace Bitemporal

theorem LittleEndian.length_ofUInt16 (x : UInt16) : (ofUInt16 x).length = 2 :=
  length_octets _ _

theorem LittleEndian.length_ofUInt32 (x : UInt32) : (ofUInt32 x).length = 4 :=
  length_octets _ _

/-- Four octets are those of the word that they stand for. -/
theorem LittleEndian.eq_ofUInt32 {l : List UInt8} {x : UInt32} (hl : l.length = 4)
    (hx : UInt32.ofNat (value l) = x) : l = ofUInt32 x := by
  have hlt := value_lt l
  rw [hl] at hlt
  rw [ofUInt32, eq_octets_iff x.toNat_lt, ← hx, UInt32.toNat_ofNat_of_lt' hlt]
  exact ⟨hl, rfl⟩

theorem LittleEndian.ofNat_value_ofUInt32 (x : UInt32) :
    UInt32.ofNat (value (ofUInt32 x)) = x := by
  have hlt : x.toNat < Nat.pow 256 4 := x.toNat_lt
  rw [ofUInt32, value_octets, Nat.mod_eq_of_lt hlt, UInt32.ofNat_toNat]

namespace Record

open Reader (Reads)

variable {α : Type} {magic : List UInt8} {read : Reader Fault α} {F : α → List UInt8 → Prop}

/-- What a record says before its checksum. -/
def contents (magic body : List UInt8) : List UInt8 :=
  magic ++ LittleEndian.ofUInt16 formatVersion ++ body

theorem wrap_eq (magic body : List UInt8) : wrap magic body =
    contents magic body ++ LittleEndian.ofUInt32 (Checksum.ofOctets (contents magic body)) := rfl

theorem unwrap_eq_ok_iff (hmagic : magic.length = 4) (h : Reads read F) {octets : List UInt8}
    {a : α} : unwrap magic read octets = .ok a ↔ ∃ body, F a body ∧ octets = wrap magic body := by
  have hversion : Reads (Reader.uint16 : Reader Fault UInt16) _ := .uint16
  constructor
  · intro hu
    rw [unwrap] at hu
    split_ifs at hu with hshort hmark
    dsimp only at hu
    split_ifs at hu with hsum
    split at hu
    · cases hu
    · next version c hread =>
      split_ifs at hu with hknown
      split at hu
      · cases hu
      · next a' c' hbody =>
        split_ifs at hu with hend
        obtain rfl := Except.ok.inj hu
        obtain ⟨_, rfl, hrest, -⟩ := (hversion ..).1 hread
        obtain ⟨body, hF, hrest', -⟩ := (h ..).1 hbody
        -- the parts that were told apart are all there is
        refine ⟨body, hF, ?_⟩
        rw [List.isEmpty_iff.1 hend, List.append_nil] at hrest'
        dsimp only at hrest
        have hcontents : octets.take (octets.length - 4) = contents magic body := by
          rw [← List.take_append_drop 4 (octets.take _), List.take_take,
            Nat.min_eq_left (by omega), not_not.1 hmark, hrest, hrest', not_not.1 hknown,
            contents, List.append_assoc]
        have hstated : (octets.drop (octets.length - 4)).length = 4 := by
          rw [List.length_drop]
          omega
        have hsum' := LittleEndian.eq_ofUInt32 hstated (not_not.1 hsum)
        rw [hcontents] at hsum'
        rw [wrap_eq, ← hsum', ← hcontents, List.take_append_drop]
  · rintro ⟨body, hF, rfl⟩
    -- the octets come apart where they were put together
    have hcontents : (contents magic body).length = magic.length + 2 + body.length := by
      rw [contents, List.length_append, List.length_append, LittleEndian.length_ofUInt16]
    have hlength : (wrap magic body).length = (contents magic body).length + 4 := by
      rw [wrap_eq, List.length_append, LittleEndian.length_ofUInt32]
    have hmark : (wrap magic body).take 4 = magic := by
      rw [wrap_eq, contents, List.append_assoc, List.append_assoc, List.take_left' hmagic]
    have hbefore : (wrap magic body).take ((wrap magic body).length - 4) = contents magic body := by
      rw [hlength, Nat.add_sub_cancel, wrap_eq, List.take_left]
    have hafter : (wrap magic body).drop ((wrap magic body).length - 4) =
        LittleEndian.ofUInt32 (Checksum.ofOctets (contents magic body)) := by
      rw [hlength, Nat.add_sub_cancel, wrap_eq, List.drop_left]
    have hrest : (contents magic body).drop 4 = LittleEndian.ofUInt16 formatVersion ++ body := by
      rw [contents, List.append_assoc, List.drop_left' hmagic]
    have hread := (hversion ⟨4, (contents magic body).drop 4⟩ formatVersion ⟨6, body⟩).2
      ⟨_, rfl, hrest, rfl⟩
    have hbody := (h ⟨6, body⟩ a ⟨6 + body.length, []⟩).2
      ⟨body, hF, (List.append_nil body).symm, rfl⟩
    rw [unwrap, if_neg (by omega), if_neg (not_not.2 hmark)]
    dsimp only
    rw [hbefore, hafter, LittleEndian.ofNat_value_ofUInt32, if_neg (not_not.2 rfl), hread]
    dsimp only
    rw [if_neg (not_not.2 rfl), hbody]
    rfl

end Record

end Bitemporal
