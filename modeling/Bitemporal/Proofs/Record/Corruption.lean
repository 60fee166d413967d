import Bitemporal.Proofs.Bytes.Checksum
import Bitemporal.Proofs.Record.Codec

/-!
# Records with a corrupted octet

A record of which one octet was changed is refused, whatever the octet is and whatever it
was changed to (`changed_octet_caught`). The mark, the contents and the stated checksum are
told apart by where they stand, and a changed octet stands in one of them. One of the first
four makes another mark. One of the last four makes another statement
(`stated_set_ne`) about contents that are what they were, and any other leaves the
statement and makes contents with another checksum, by `Checksum.ofOctets_set_ne`. So the
two checksums, which agree in a record (`Sealed`), do not agree any more
(`stated_set_ne_computed_set`). All this comes before the body is looked at, so it holds of
records in any format (`Sealed.caught_set`).
-/

namespace Bitemporal

theorem LittleEndian.ofNat_value_injective {l l' : List UInt8} (hl : l.length = 4)
    (hl' : l'.length = 4) (h : UInt32.ofNat (value l) = UInt32.ofNat (value l')) : l = l' :=
  (eq_ofUInt32 hl h).trans (eq_ofUInt32 hl' rfl).symm

namespace Record

variable {α : Type} {magic octets : List UInt8} {read : Reader Fault α} {i : Nat} {b : UInt8}

/-- The checksum that octets state at their end. -/
def stated (octets : List UInt8) : UInt32 :=
  UInt32.ofNat (LittleEndian.value (octets.drop (octets.length - 4)))

/-- The checksum of what stands before it. -/
def computed (octets : List UInt8) : UInt32 :=
  Checksum.ofOctets (octets.take (octets.length - 4))

/-- Octets that are a record as far as can be told without reading the body. -/
structure Sealed (magic octets : List UInt8) : Prop where
  length : 10 ≤ octets.length
  mark : octets.take 4 = magic
  checksum : stated octets = computed octets

theorem sealed_of_unwrap {a : α} (h : unwrap magic read octets = .ok a) : Sealed magic octets := by
  rw [unwrap] at h
  split_ifs at h with hshort hmark
  dsimp only at h
  split_ifs at h with hsum
  exact ⟨Nat.le_of_not_lt hshort, not_not.1 hmark, not_not.1 hsum⟩

theorem unwrap_eq_wrongMagic (hlength : 10 ≤ octets.length) (hmark : octets.take 4 ≠ magic) :
    unwrap magic read octets = .error .wrongMagic := by
  rw [unwrap, if_neg (Nat.not_lt.2 hlength), if_pos hmark]

theorem unwrap_eq_wrongChecksum (hlength : 10 ≤ octets.length) (hmark : octets.take 4 = magic)
    (hsum : stated octets ≠ computed octets) :
    unwrap magic read octets = .error (.wrongChecksum (stated octets) (computed octets)) := by
  rw [unwrap, if_neg (Nat.not_lt.2 hlength), if_neg (not_not.2 hmark)]
  exact if_pos hsum

/-! ### What a changed octet changes -/

theorem set_ne_self {l : List UInt8} (hi : i < l.length) (hb : b ≠ l[i]) : l.set i b ≠ l := by
  intro h
  have hget := List.getElem_of_eq h (by rwa [List.length_set])
  rw [List.getElem_set_self] at hget
  exact hb hget

theorem take_set_ne {n : Nat} (hi : i < octets.length) (hn : i < n) (hb : b ≠ octets[i]) :
    (octets.set i b).take n ≠ octets.take n := by
  rw [List.take_set]
  exact set_ne_self (by rw [List.length_take]; omega) (by rwa [List.getElem_take])

theorem stated_set_ne (hlength : 4 ≤ octets.length) (hi : i < octets.length)
    (hend : octets.length - 4 ≤ i) (hb : b ≠ octets[i]) :
    stated (octets.set i b) ≠ stated octets := by
  intro h
  rw [stated, stated, List.length_set] at h
  have hlast : ((octets.set i b).drop (octets.length - 4)).length = 4 := by
    rw [List.length_drop, List.length_set]
    omega
  have hdrop := LittleEndian.ofNat_value_injective hlast (by rw [List.length_drop]; omega) h
  rw [List.drop_set, if_neg (Nat.not_lt.2 hend)] at hdrop
  refine set_ne_self (by rw [List.length_drop]; omega) ?_ hdrop
  rw [List.getElem_drop]
  simpa only [Nat.add_sub_cancel' hend] using hb

theorem stated_set (hi : i < octets.length - 4) : stated (octets.set i b) = stated octets := by
  rw [stated, stated, List.length_set, List.drop_set, if_pos hi]

theorem computed_set_ne (hi : i < octets.length - 4) (hb : b ≠ octets[i]) :
    computed (octets.set i b) ≠ computed octets := by
  rw [computed, computed, List.length_set, List.take_set]
  exact Checksum.ofOctets_set_ne (by rw [List.length_take]; omega) (by rwa [List.getElem_take])

theorem computed_set (hend : octets.length - 4 ≤ i) :
    computed (octets.set i b) = computed octets := by
  rw [computed, computed, List.length_set, List.take_set, List.set_eq_of_length_le]
  exact Nat.le_trans (List.length_take_le _ _) hend

/-- If the two checksums agreed, they do not agree any more. -/
theorem stated_set_ne_computed_set (h : Sealed magic octets) (hi : i < octets.length)
    (hb : b ≠ octets[i]) : stated (octets.set i b) ≠ computed (octets.set i b) := by
  have hlength := h.length
  by_cases hend : octets.length - 4 ≤ i
  · rw [computed_set hend, ← h.checksum]
    exact stated_set_ne (by omega) hi hend hb
  · rw [stated_set (Nat.lt_of_not_le hend), h.checksum]
    exact (computed_set_ne (Nat.lt_of_not_le hend) hb).symm

/-! ### What becomes of it -/

/-- The octets are refused for a change at a place: for their mark if it stands there, and
    else for their checksum. -/
structure Caught (decode : List UInt8 → Except Fault α) (octets : List UInt8) (i : Nat) :
    Prop where
  mark : i < 4 → decode octets = .error .wrongMagic
  checksum : 4 ≤ i → stated octets ≠ computed octets ∧
    decode octets = .error (.wrongChecksum (stated octets) (computed octets))

theorem Sealed.caught_set (h : Sealed magic octets) (hi : i < octets.length) (hb : b ≠ octets[i]) :
    Caught (unwrap magic read) (octets.set i b) i := by
  have hlength : 10 ≤ (octets.set i b).length := by
    rw [List.length_set]
    exact h.length
  constructor
  · intro hmark
    exact unwrap_eq_wrongMagic hlength (h.mark ▸ take_set_ne hi hmark hb)
  · intro hafter
    have hmark : (octets.set i b).take 4 = magic := by
      rw [List.take_set, List.set_eq_of_length_le, h.mark]
      exact Nat.le_trans (List.length_take_le _ _) hafter
    have hsum := stated_set_ne_computed_set h hi hb
    exact ⟨hsum, unwrap_eq_wrongChecksum hlength hmark hsum⟩

/-- Octets that are read, as stamps or as a component, are not read any more once any one of
    them is another. They are said to have the wrong mark if it is one of the first four,
    and the wrong checksum if it is any other, even one of the checksum itself. -/
theorem changed_octet_caught (octets : List UInt8) (i : Nat) (hi : i < octets.length) (b : UInt8)
    (hb : b ≠ octets[i]) :
    (∀ rows, decodeStamps octets = .ok rows → Caught decodeStamps (octets.set i b) i) ∧
    ∀ r, History.decode octets = .ok r → Caught History.decode (octets.set i b) i :=
  ⟨fun _ h => (sealed_of_unwrap h).caught_set hi hb,
    fun _ h => (sealed_of_unwrap h).caught_set hi hb⟩

theorem changed_octet_caught_in_samples :
    Caught decodeStamps ((encodeStamps sampleRows).set 40 0x2A) 40 ∧
      Caught History.decode (History.sample.encode.set 2 0) 2 := by
  have hrows : decodeStamps (encodeStamps sampleRows) = .ok sampleRows :=
    decodeStamps_eq_ok_iff.2 ⟨by decide, rfl⟩
  have hsample : History.decode History.sample.encode = .ok History.sample := by
    refine History.decode_eq_ok_iff.2 ⟨?_, rfl⟩
    refine ⟨by decide, iff_of_true rfl rfl, ?_, by decide, by decide⟩
    rintro _ ⟨⟩
    decide
  exact ⟨(changed_octet_caught (encodeStamps sampleRows) 40 (by decide) 0x2A (by decide)).1 _ hrows,
    (changed_octet_caught History.sample.encode 2 (by decide) 0 (by decide)).2 _ hsample⟩

end Record

end Bitemporal
