import Bitemporal.Bytes.Utf8
import Mathlib.Tactic.SplitIfs

/-!
# Text and its octets

Octets are text exactly if they are the octets of some text, and then of one only
(`decode_eq_ok_iff`).

* Whatever branch of the decoder takes a character, the octets of the character are
  those that the branch took (`encode_ofOne` to `encode_ofFour`), so that what was
  decoded is encoded as it stood there (`continues_of_decodeFrom`).
* The octets of a character pass the tests of the branch for their number, and the
  character comes out again (`decodeFrom_encode`).
-/

namespace Bitemporal.Utf8

/-! ## Tests on octets -/

theorem between_iff {low high b : UInt8} :
    (low ≤ b && b ≤ high) = true ↔ low.toNat ≤ b.toNat ∧ b.toNat ≤ high.toNat := by
  simp [UInt8.le_iff_toNat_le]

theorem not_between {low high b : UInt8} (h : high.toNat < b.toNat) :
    ¬ (low ≤ b && b ≤ high) = true :=
  fun hb => Nat.not_le_of_lt h (between_iff.1 hb).2

theorem not_ascii {b : UInt8} (h : 128 ≤ b.toNat) : ¬ b < 0x80 :=
  UInt8.not_lt.2 (UInt8.le_iff_toNat_le.2 h)

theorem isContinuation_iff {b : UInt8} :
    isContinuation b = true ↔ 128 ≤ b.toNat ∧ b.toNat ≤ 191 :=
  between_iff

/-- After four of the first octets, fewer second octets are admitted. -/
theorem isSecond_iff {a b : UInt8} :
    isSecond a b = true ↔ (128 ≤ b.toNat ∧ b.toNat ≤ 191) ∧ (a.toNat = 224 → 160 ≤ b.toNat) ∧
      (a.toNat = 237 → b.toNat ≤ 159) ∧ (a.toNat = 240 → 144 ≤ b.toNat) ∧
      (a.toNat = 244 → b.toNat ≤ 143) := by
  unfold isSecond
  simp only [← UInt8.toNat_inj]
  split_ifs with h₁ h₂ h₃ h₄ <;>
    simp only [isContinuation_iff, between_iff, UInt8.reduceToNat] at * <;> omega

/-! ## The octets of one character -/

theorem toNat_ofNat {n : Nat} (h : n.isValidChar) : (Char.ofNat n).val.toNat = n := by
  rw [Char.ofNat, dif_pos h]
  rfl

/-- The octets of the character with a number. -/
theorem encode_ofNat {n : Nat} (h : n.isValidChar) :
    String.utf8EncodeChar (Char.ofNat n) =
      if n ≤ 127 then [UInt8.ofNat n]
      else if n ≤ 2047 then [UInt8.ofNat (n / 64 % 32 + 192), UInt8.ofNat (n % 64 + 128)]
      else if n ≤ 65535 then
        [UInt8.ofNat (n / 4096 % 16 + 224), UInt8.ofNat (n / 64 % 64 + 128),
          UInt8.ofNat (n % 64 + 128)]
      else
        [UInt8.ofNat (n / 262144 % 8 + 240), UInt8.ofNat (n / 4096 % 64 + 128),
          UInt8.ofNat (n / 64 % 64 + 128), UInt8.ofNat (n % 64 + 128)] := by
  rw [String.utf8EncodeChar, toNat_ofNat h]

theorem ofNat_eq {a : UInt8} {n : Nat} (h : n = a.toNat) : UInt8.ofNat n = a := by
  rw [h, UInt8.ofNat_toNat]

theorem encode_ofOne {a : UInt8} (ha : a.toNat < 128) :
    String.utf8EncodeChar (Char.ofNat a.toNat) = [a] := by
  rw [encode_ofNat (.inl (by omega)), if_pos (by omega), UInt8.ofNat_toNat]

theorem encode_ofTwo {a b : UInt8} (ha : 194 ≤ a.toNat ∧ a.toNat ≤ 223)
    (hb : isContinuation b = true) : String.utf8EncodeChar (ofTwo a b) = [a, b] := by
  rw [isContinuation_iff] at hb
  unfold ofTwo payload
  rw [encode_ofNat (.inl (by omega)), if_neg (by omega), if_pos (by omega)]
  congr 2
  · exact ofNat_eq (by omega)
  · exact ofNat_eq (by omega)

theorem encode_ofThree {a b c : UInt8} (ha : 224 ≤ a.toNat ∧ a.toNat ≤ 239)
    (hb : isSecond a b = true) (hc : isContinuation c = true) :
    String.utf8EncodeChar (ofThree a b c) = [a, b, c] := by
  rw [isContinuation_iff] at hc
  rw [isSecond_iff] at hb
  unfold ofThree payload
  rw [encode_ofNat (by unfold Nat.isValidChar; omega), if_neg (by omega), if_neg (by omega),
    if_pos (by omega)]
  congr 3
  · exact ofNat_eq (by omega)
  · exact ofNat_eq (by omega)
  · exact ofNat_eq (by omega)

theorem encode_ofFour {a b c d : UInt8} (ha : 240 ≤ a.toNat ∧ a.toNat ≤ 244)
    (hb : isSecond a b = true) (hc : isContinuation c = true) (hd : isContinuation d = true) :
    String.utf8EncodeChar (ofFour a b c d) = [a, b, c, d] := by
  rw [isContinuation_iff] at hc hd
  rw [isSecond_iff] at hb
  unfold ofFour payload
  rw [encode_ofNat (by unfold Nat.isValidChar; omega), if_neg (by omega), if_neg (by omega),
    if_neg (by omega)]
  congr 4
  · exact ofNat_eq (by omega)
  · exact ofNat_eq (by omega)
  · exact ofNat_eq (by omega)
  · exact ofNat_eq (by omega)

/-! ## Decoding gives what was encoded -/

/-- `chars` are the characters `before`, which are in reverse, and then those of which
    `octets` are the octets. -/
def Continues (before : List Char) (octets : List UInt8) (chars : List Char) : Prop :=
  ∃ after, chars = before.reverse ++ after ∧ octets = after.flatMap String.utf8EncodeChar

theorem Continues.cons {before chars : List Char} {octets rest : List UInt8} {c : Char}
    (hc : String.utf8EncodeChar c = octets) (h : Continues (c :: before) rest chars) :
    Continues before (octets ++ rest) chars := by
  obtain ⟨after, rfl, rfl⟩ := h
  exact ⟨c :: after, by simp, by simp [hc]⟩

theorem continues_of_decodeFrom {index : Nat} {before chars : List Char} {octets : List UInt8}
    (h : decodeFrom index before octets = .ok chars) : Continues before octets chars := by
  fun_induction decodeFrom index before octets with
  | case1 => exact ⟨[], by simpa using h.symm, rfl⟩
  | case2 index before a rest ha ih =>
    exact .cons (encode_ofOne (UInt8.lt_iff_toNat_lt.1 ha)) (ih h)
  | case5 index before a _ ha b rest hb ih =>
    exact .cons (encode_ofTwo (between_iff.1 ha) (by simpa using hb)) (ih h)
  | case10 index before a _ _ ha b hb c rest hc ih =>
    exact .cons (encode_ofThree (between_iff.1 ha) (by simpa using hb) (by simpa using hc)) (ih h)
  | case17 index before a _ _ _ ha b hb c hc d rest hd ih =>
    exact .cons (encode_ofFour (between_iff.1 ha) (by simpa using hb) (by simpa using hc)
      (by simpa using hd)) (ih h)
  -- in all other branches the octets are refused
  | _ => cases h

/-! ## What was encoded is decoded -/

variable (index : Nat) (before : List Char) (rest : List UInt8)

theorem decodeFrom_one {a : UInt8} (ha : a.toNat < 128) :
    decodeFrom index before (a :: rest) =
      decodeFrom (index + 1) (Char.ofNat a.toNat :: before) rest := by
  rw [decodeFrom.eq_def]
  exact if_pos (UInt8.lt_iff_toNat_lt.2 ha)

theorem decodeFrom_two {a b : UInt8} (ha : 194 ≤ a.toNat ∧ a.toNat ≤ 223)
    (hb : isContinuation b = true) :
    decodeFrom index before (a :: b :: rest) =
      decodeFrom (index + 2) (ofTwo a b :: before) rest := by
  have h₁ : ¬ a < 0x80 := not_ascii (by omega)
  have h₂ : (0xC2 ≤ a && a ≤ 0xDF) = true := between_iff.2 ha
  rw [decodeFrom.eq_def]
  simp [h₁, h₂, hb]

theorem decodeFrom_three {a b c : UInt8} (ha : 224 ≤ a.toNat ∧ a.toNat ≤ 239)
    (hb : isSecond a b = true) (hc : isContinuation c = true) :
    decodeFrom index before (a :: b :: c :: rest) =
      decodeFrom (index + 3) (ofThree a b c :: before) rest := by
  have h₁ : ¬ a < 0x80 := not_ascii (by omega)
  have h₂ : ¬ (0xC2 ≤ a && a ≤ 0xDF) = true := not_between (Nat.lt_of_lt_of_le (by decide) ha.1)
  have h₃ : (0xE0 ≤ a && a ≤ 0xEF) = true := between_iff.2 ha
  rw [decodeFrom.eq_def]
  simp [h₁, h₂, h₃, hb, hc]

theorem decodeFrom_four {a b c d : UInt8} (ha : 240 ≤ a.toNat ∧ a.toNat ≤ 244)
    (hb : isSecond a b = true) (hc : isContinuation c = true) (hd : isContinuation d = true) :
    decodeFrom index before (a :: b :: c :: d :: rest) =
      decodeFrom (index + 4) (ofFour a b c d :: before) rest := by
  have h₁ : ¬ a < 0x80 := not_ascii (by omega)
  have h₂ : ¬ (0xC2 ≤ a && a ≤ 0xDF) = true := not_between (Nat.lt_of_lt_of_le (by decide) ha.1)
  have h₃ : ¬ (0xE0 ≤ a && a ≤ 0xEF) = true := not_between (Nat.lt_of_lt_of_le (by decide) ha.1)
  have h₄ : (0xF0 ≤ a && a ≤ 0xF4) = true := between_iff.2 ha
  rw [decodeFrom.eq_def]
  simp [h₁, h₂, h₃, h₄, hb, hc, hd]

/-- A character is decoded from its octets, whatever follows them. -/
theorem decodeFrom_encode (c : Char) :
    ∃ index', decodeFrom index before (String.utf8EncodeChar c ++ rest) =
      decodeFrom index' (c :: before) rest := by
  have hv : c.val.toNat.isValidChar := c.valid
  have hc : Char.ofNat c.val.toNat = c := Char.ofNat_toNat c
  generalize c.val.toNat = n at hv hc
  subst hc
  rw [encode_ofNat hv]
  unfold Nat.isValidChar at hv
  -- a branch for each number of octets: they pass its tests, and give the number again
  split_ifs with h₁ h₂ h₃
  · refine ⟨index + 1, (decodeFrom_one index before rest ?_).trans ?_⟩
    · simp; omega
    · congr 3; simp; omega
  · refine ⟨index + 2, (decodeFrom_two index before rest ?_ ?_).trans ?_⟩
    · simp; omega
    · rw [isContinuation_iff]; simp; omega
    · congr 2; unfold ofTwo payload; congr 1; simp; omega
  · refine ⟨index + 3, (decodeFrom_three index before rest ?_ ?_ ?_).trans ?_⟩
    · simp; omega
    · rw [isSecond_iff]; simp; omega
    · rw [isContinuation_iff]; simp; omega
    · congr 2; unfold ofThree payload; congr 1; simp; omega
  · refine ⟨index + 4, (decodeFrom_four index before rest ?_ ?_ ?_ ?_).trans ?_⟩
    · simp; omega
    · rw [isSecond_iff]; simp; omega
    · rw [isContinuation_iff]; simp; omega
    · rw [isContinuation_iff]; simp; omega
    · congr 2; unfold ofFour payload; congr 1; simp; omega

theorem decodeFrom_flatMap (chars : List Char) :
    decodeFrom index before (chars.flatMap String.utf8EncodeChar) =
      .ok (before.reverse ++ chars) := by
  induction chars generalizing index before with
  | nil => simp [decodeFrom]
  | cons c rest ih =>
    obtain ⟨index', h⟩ :=
      decodeFrom_encode index before (rest.flatMap String.utf8EncodeChar) c
    rw [List.flatMap_cons, h, ih]
    simp

/-- A text is decoded from its octets, and from no others. -/
theorem decode_eq_ok_iff {octets : List UInt8} {text : String} :
    decode octets = .ok text ↔ octets = encode text := by
  constructor
  · intro h
    rw [decode] at h
    cases hd : decodeFrom 0 [] octets with
    | error fault => simp [hd, Except.map] at h
    | ok chars =>
      obtain rfl : String.ofList chars = text := by simpa [hd, Except.map] using h
      obtain ⟨after, rfl, rfl⟩ := continues_of_decodeFrom hd
      simp [encode]
  · rintro rfl
    rw [decode, encode, decodeFrom_flatMap]
    simp [Except.map]

end Bitemporal.Utf8
