import Bitemporal.Proofs.Bytes.Reader

/-!
# Readers before more octets

A reader that has come to an answer, or to a refusal, has not looked at what it did not
pass, so it comes to the same if there are more octets at the end (`Reader.Steady`). Only
a refusal for the end of the octets may be another then; which faults are refusals of this
kind is said by a condition on faults.

Steady readers are put together from steady readers, as forms are put together in
`Reader.Reads`. What is gained is a statement on octets of which the end was cut off: where
a steady reader takes octets to their end, it says of any shorter part of them that it
ends too early (`Reader.Steady.cut`).
-/

namespace Bitemporal

/-- The place with more octets at the end. -/
def Cursor.extend (c : Cursor) (more : List UInt8) : Cursor :=
  ⟨c.position, c.rest ++ more⟩

namespace Reader

variable {ε α β : Type} {Ended : ε → Prop} {read : Reader ε α}

/-- More octets at the end change nothing, unless it was for the end that the reader was
    refused. -/
structure Steady (Ended : ε → Prop) (read : Reader ε α) : Prop where
  answer : ∀ {c : Cursor} {a : α} {c' : Cursor} (more : List UInt8), read c = .ok (a, c') →
    read (c.extend more) = .ok (a, c'.extend more)
  refusal : ∀ {c : Cursor} {e : ε} (more : List UInt8), read c = .error e →
    Ended e ∨ read (c.extend more) = .error e

namespace Steady

theorem pure (a : α) : Steady Ended (pure a : Reader ε α) where
  answer _ h := by
    obtain ⟨rfl, rfl⟩ := Prod.mk.inj (Except.ok.inj h)
    rfl
  refusal _ h := nomatch h

theorem throw (e : ε) : Steady Ended (throw e : Reader ε α) where
  answer _ h := nomatch h
  refusal _ h := .inr h

theorem bind {f : α → Reader ε β} (h : Steady Ended read) (hf : ∀ a, Steady Ended (f a)) :
    Steady Ended (read >>= f) where
  answer more hc := by
    rw [bind_apply, bind_eq_ok_iff] at hc
    obtain ⟨⟨a, c₁⟩, hread, hc⟩ := hc
    rw [bind_apply, h.answer more hread]
    exact (hf a).answer more hc
  refusal {c} {e} more hc := by
    rw [bind_apply] at hc
    cases hread : read c with
    | error e' =>
      rw [hread] at hc
      obtain rfl := Except.error.inj hc
      refine (h.refusal more hread).imp_right fun hmore => ?_
      rw [bind_apply, hmore]
      rfl
    | ok p =>
      rw [hread] at hc
      refine ((hf p.1).refusal more hc).imp_right fun hmore => ?_
      rw [bind_apply, h.answer more hread]
      exact hmore

theorem map (h : Steady Ended read) (f : α → β) : Steady Ended (do return f (← read)) :=
  h.bind fun _ => pure _

/-! ### Octets and words -/

/-- Where there are as many octets as are wanted, those that follow them do not count. -/
theorem takeOr (n : Nat) (fault : Cursor → ε)
    (hfault : ∀ c : Cursor, c.rest.length < n → Ended (fault c)) :
    Steady Ended fun c => if (c.rest.take n).length = n
      then .ok (c.rest.take n, ⟨c.position + n, c.rest.drop n⟩) else .error (fault c) where
  answer {c} {a} {c'} more h := by
    split at h
    · next hn =>
      obtain ⟨rfl, rfl⟩ := Prod.mk.inj (Except.ok.inj h)
      have hle : n ≤ c.rest.length := by
        rw [List.length_take] at hn
        omega
      rw [Cursor.extend, List.take_append_of_le_length hle, List.drop_append_of_le_length hle,
        if_pos hn]
      rfl
    · cases h
  refusal {c} {e} more h := by
    split at h
    · cases h
    · next hn =>
      obtain rfl := Except.error.inj h
      refine .inl (hfault c ?_)
      rw [List.length_take] at hn
      omega

section Words

variable [EndOfInput ε]

theorem take (hend : Ended EndOfInput.endOfInput) (n : Nat) :
    Steady Ended (take n : Reader ε (List UInt8)) :=
  takeOr n (fun _ => EndOfInput.endOfInput) fun _ _ => hend

theorem octet (hend : Ended EndOfInput.endOfInput) : Steady Ended (octet : Reader ε UInt8) where
  answer {c} {a} {c'} more h := by
    obtain ⟨position, rest⟩ := c
    cases rest with
    | nil => cases h
    | cons b rest =>
      obtain ⟨rfl, rfl⟩ := Prod.mk.inj (Except.ok.inj h)
      rfl
  refusal {c} {e} more h := by
    obtain ⟨position, rest⟩ := c
    cases rest with
    | nil =>
      obtain rfl := Except.error.inj h
      exact .inl hend
    | cons b rest => cases h

theorem uint16 (hend : Ended EndOfInput.endOfInput) : Steady Ended (uint16 : Reader ε UInt16) :=
  (take hend 2).map _

theorem uint32 (hend : Ended EndOfInput.endOfInput) : Steady Ended (uint32 : Reader ε UInt32) :=
  (take hend 4).map _

theorem int32 (hend : Ended EndOfInput.endOfInput) : Steady Ended (int32 : Reader ε Int32) :=
  (uint32 hend).map _

theorem int64 (hend : Ended EndOfInput.endOfInput) : Steady Ended (int64 : Reader ε Int64) :=
  (take hend 8).map _

end Words

/-! ### Repetition -/

theorem times (h : Steady Ended read) (n : Nat) : Steady Ended (times n read) := by
  induction n with
  | zero => exact pure []
  | succ n ih =>
    rw [times_succ_eq_bind]
    exact h.bind fun a => ih.map (a :: ·)

theorem each {read : β → Reader ε α} (h : ∀ b, Steady Ended (read b)) (l : List β) :
    Steady Ended (each read l) := by
  induction l with
  | nil => exact pure []
  | cons b l ih =>
    rw [each_cons_eq_bind]
    exact (h b).bind fun a => ih.map (a :: ·)

/-! ### Shorter and longer octets -/

/-- Of octets that are taken to their end, a part ends too early. -/
theorem cut (h : Steady Ended read) {position n : Nat} {octets : List UInt8} {a : α} {c : Cursor}
    (hread : read ⟨position, octets⟩ = .ok (a, c)) (hend : c.rest = []) (hn : n < octets.length) :
    ∃ e, Ended e ∧ read ⟨position, octets.take n⟩ = .error e := by
  have hwhole : Cursor.extend ⟨position, octets.take n⟩ (octets.drop n) = ⟨position, octets⟩ := by
    rw [Cursor.extend, List.take_append_drop]
  cases hcut : read ⟨position, octets.take n⟩ with
  | error e =>
    refine ⟨e, (h.refusal (octets.drop n) hcut).resolve_right fun hmore => ?_, rfl⟩
    rw [hwhole, hread] at hmore
    cases hmore
  | ok p =>
    -- an answer would stay what it is when the rest follows, and leave that rest
    have hmore := h.answer (octets.drop n) hcut
    rw [hwhole, hread] at hmore
    have hrest : [] = p.2.rest ++ octets.drop n := by
      rw [← hend]
      exact congrArg Cursor.rest (Prod.mk.inj (Except.ok.inj hmore)).2
    have hdrop : octets.length ≤ n := List.drop_eq_nil_iff.1 (List.append_eq_nil_iff.1 hrest.symm).2
    exact absurd hn (Nat.not_lt.2 hdrop)

/-- Octets that are taken to their end are taken just so if more follow. -/
theorem pad (h : Steady Ended read) {position : Nat} {octets : List UInt8} {a : α} {c : Cursor}
    (hread : read ⟨position, octets⟩ = .ok (a, c)) (hend : c.rest = []) (more : List UInt8) :
    read ⟨position, octets ++ more⟩ = .ok (a, ⟨c.position, more⟩) := by
  rw [show (⟨position, octets ++ more⟩ : Cursor) = Cursor.extend ⟨position, octets⟩ more from rfl,
    h.answer more hread, Cursor.extend, hend, List.nil_append]

end Steady

end Reader

end Bitemporal
