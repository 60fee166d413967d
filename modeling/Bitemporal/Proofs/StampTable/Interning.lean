import Bitemporal.Proofs.StampTable.Numbers
import Mathlib.Data.List.Nodup
import Mathlib.Logic.Equiv.Defs

/-!
# Numbers up to the order of interning

If stamps are interned one after the other and nothing else is done to a table
(`StampTable.InternsTo`), then a number that a stamp is given is final: it is what the
stamp is looked up under in the end (`InternsTo.seq?_eq`). Each stamp that came in this way
stands at a single place (`InternsTo.lastPlace?_eq`), even if those that were there before
stand at several.

So when the same stamps are interned from one table in two orders, the numbers differ by a
permutation that leaves the numbers from before alone (`SameInterned.correspondence`).
-/

namespace Bitemporal.StampTable

variable {t t' t₁ t₂ : StampTable} {stamp : Stamp} {seq : StampSeq} {place : Nat}

/-- A table becomes another one: stamps are interned one after the other. -/
inductive InternsTo (t : StampTable) : StampTable → Prop
  | refl : InternsTo t t
  | intern {t' t'' : StampTable} {stamp : Stamp} {seq : StampSeq} : InternsTo t t' →
      t'.intern stamp = .ok (seq, t'') → InternsTo t t''

namespace InternsTo

theorem growsTo (h : t.InternsTo t') : t.GrowsTo t' := by
  induction h with
  | refl => exact .refl t
  | intern _ hi ih => exact ih.trans (growsTo_intern hi)

theorem coherent (h : t.InternsTo t') (ht : t.Coherent) : t'.Coherent :=
  h.growsTo.coherent ht

theorem trans (h : t.InternsTo t₁) (h' : t₁.InternsTo t₂) : t.InternsTo t₂ := by
  induction h' with
  | refl => exact h
  | intern _ hi ih => exact ih.intern hi

/-- A stamp that is interned is looked up under the same number ever after. -/
theorem seq?_eq (h : t.InternsTo t') (hs : t.seq? stamp = some seq) : t'.seq? stamp = some seq := by
  induction h with
  | refl => exact hs
  | @intern t' t'' pushed seq' _ hi ih =>
    obtain ⟨-, ⟨-, rfl⟩ | ⟨hnone, -, rfl⟩⟩ := intern_eq_ok hi
    · exact ih
    · have hne : pushed ≠ stamp := by
        rintro rfl
        rw [hnone] at ih
        cases ih
      rwa [seq?_push_of_ne hne]

/-- A stamp that came in stands at one place only. -/
theorem lastPlace?_eq (h : t.InternsTo t') (ht : t.Coherent) (hnew : stamp ∉ t.stamps)
    (hp : t'.stamps[place]? = some stamp) : lastPlace? stamp t'.stamps = some place := by
  induction h with
  | refl => exact absurd (List.mem_of_getElem? hp) hnew
  | @intern t' t'' pushed seq' h hi ih =>
    obtain ⟨-, ⟨-, rfl⟩ | ⟨hnone, -, rfl⟩⟩ := intern_eq_ok hi
    · exact ih hp
    · rw [stamps_push] at hp
      rcases Nat.lt_trichotomy place t'.stamps.length with hlt | rfl | hgt
      · -- what stood before is not what is pushed now
        rw [List.getElem?_append_left hlt] at hp
        have hne : pushed ≠ stamp := by
          rintro rfl
          exact (h.coherent ht).seq?_eq_none_iff.1 hnone (List.mem_of_getElem? hp)
        rw [lastPlace?_push_of_ne hne]
        exact ih hp
      · rw [List.getElem?_concat_length] at hp
        rw [stamps_push, lastPlace?_concat, if_pos (Option.some.inj hp)]
      · rw [List.getElem?_eq_none (by simpa [Nat.succ_le_iff] using hgt)] at hp
        cases hp

/-- The stamps that came in are behind those that were there, and each of them once. -/
theorem exists_later (h : t.InternsTo t') (ht : t.Coherent) :
    ∃ later, t'.stamps = t.stamps ++ later ∧ later.Nodup ∧ ∀ stamp ∈ later, stamp ∉ t.stamps := by
  induction h with
  | refl => exact ⟨[], (List.append_nil _).symm, List.nodup_nil, by simp⟩
  | @intern t' t'' pushed seq' h hi ih =>
    obtain ⟨later, hstamps, hnodup, hnew⟩ := ih
    obtain ⟨-, ⟨-, rfl⟩ | ⟨hnone, -, rfl⟩⟩ := intern_eq_ok hi
    · exact ⟨later, hstamps, hnodup, hnew⟩
    · rw [(h.coherent ht).seq?_eq_none_iff, hstamps, List.mem_append, not_or] at hnone
      refine ⟨later.concat pushed, ?_, hnodup.concat hnone.2, fun stamp hs => ?_⟩
      · rw [stamps_push, hstamps, List.append_assoc, List.concat_eq_append]
      · rw [List.concat_eq_append, List.mem_append, List.mem_singleton] at hs
        rcases hs with hs | rfl
        · exact hnew stamp hs
        · exact hnone.1

/-- A number that stands for a stamp that was there did so before. -/
theorem stamp_eq_of_mem (h : t.InternsTo t') (ht : t.Coherent) (hold : stamp ∈ t.stamps)
    (hs : t'.stamp seq = .ok stamp) : t.stamp seq = .ok stamp := by
  obtain ⟨later, hstamps, -, hnew⟩ := h.exists_later ht
  obtain ⟨hzero, hp⟩ := stamp_eq_ok hs
  rw [hstamps] at hp
  rcases Nat.lt_or_ge (seq.val.toNat - 1) t.stamps.length with hlt | hge
  · rw [List.getElem?_append_left hlt] at hp
    rw [StampTable.stamp, if_neg hzero, hp]
  · rw [List.getElem?_append_right hge] at hp
    exact absurd hold (hnew stamp (List.mem_of_getElem? hp))

/-- A stamp that came in is looked up under the number that stands for it. -/
theorem seq?_of_stamp (h : t.InternsTo t') (ht : t.Coherent) (hnew : stamp ∉ t.stamps)
    (hs : t'.stamp seq = .ok stamp) : t'.seq? stamp = some seq := by
  obtain ⟨place, hp, rfl⟩ := places_of_stamp hs
  rw [(h.coherent ht).seq?_eq, h.lastPlace?_eq ht hnew hp, Option.map_some]

/-- Tables that have come to hold the same stamps are of one size. -/
theorem size_eq (h₁ : t.InternsTo t₁) (h₂ : t.InternsTo t₂) (ht : t.Coherent)
    (hsame : ∀ stamp, stamp ∈ t₁.stamps ↔ stamp ∈ t₂.stamps) : t₁.size = t₂.size := by
  obtain ⟨later₁, hstamps₁, hnodup₁, hnew₁⟩ := h₁.exists_later ht
  obtain ⟨later₂, hstamps₂, hnodup₂, hnew₂⟩ := h₂.exists_later ht
  have hperm : later₁.Perm later₂ := by
    refine (List.perm_ext_iff_of_nodup hnodup₁ hnodup₂).2 fun stamp => ?_
    have hs := hsame stamp
    rw [hstamps₁, hstamps₂, List.mem_append, List.mem_append] at hs
    constructor
    · intro hs₁
      exact (hs.1 (.inr hs₁)).resolve_left (hnew₁ stamp hs₁)
    · intro hs₂
      exact (hs.2 (.inr hs₂)).resolve_left (hnew₂ stamp hs₂)
  rw [size, size, hstamps₁, hstamps₂, List.length_append, List.length_append, hperm.length_eq]

end InternsTo

/-- What a number stands for, among as many stamps, depends on its being too great. -/
theorem stamp_eq_error {e : Error} (hsize : t'.size = t.size) (hs : t.stamp seq = .error e) :
    t'.stamp seq = .error e := by
  rw [StampTable.stamp] at hs ⊢
  split
  · next hzero => rwa [if_pos hzero] at hs
  · next hzero =>
    rw [if_neg hzero] at hs
    cases hp : t.stamps[seq.val.toNat - 1]? with
    | some stamp =>
      rw [hp] at hs
      cases hs
    | none =>
      have hp' : t'.stamps[seq.val.toNat - 1]? = none := by
        rw [List.getElem?_eq_none_iff] at hp ⊢
        rwa [← size, hsize]
      rw [hp] at hs
      rwa [hp']

theorem Coherent.stamp_eq (ht : t.Coherent) (hs : t.seq? stamp = some seq)
    (hsize : t.size < UInt32.size) : t.stamp seq = .ok stamp :=
  (ht.places hs).stamp_eq hsize

/-! ## Numbers given in advance -/

/-- The numbers of a table are among those given. -/
def Numbers (t : StampTable) (number : Stamp → StampSeq) : Prop :=
  ∀ stamp seq, t.seq? stamp = some seq → number stamp = seq

/-- The numbers of a table at the end are those on the way to it. -/
theorem Numbers.of_internsTo {number : Stamp → StampSeq} (hn : t'.Numbers number)
    (h : t.InternsTo t') : t.Numbers number :=
  fun stamp seq hs => hn stamp seq (h.seq?_eq hs)

/-- The number of a stamp, if it has one. -/
def number (t : StampTable) (stamp : Stamp) : StampSeq :=
  (t.seq? stamp).getD default

theorem numbers_number (t : StampTable) : t.Numbers t.number := by
  intro stamp seq hs
  rw [number, hs]
  rfl

/-! ## Corresponding numbers -/

/-- The number in one table of what a number stands for in another one, if that came in since
    a third one. -/
def counterpart (t t₁ t₂ : StampTable) (seq : StampSeq) : StampSeq :=
  match t₁.stamp seq with
  | .error _ => seq
  | .ok stamp => if stamp ∈ t.stamps then seq else (t₂.seq? stamp).getD seq

theorem counterpart_of_error {e : Error} (hs : t₁.stamp seq = .error e) :
    counterpart t t₁ t₂ seq = seq := by
  rw [counterpart, hs]

theorem counterpart_of_old (hs : t₁.stamp seq = .ok stamp) (hold : stamp ∈ t.stamps) :
    counterpart t t₁ t₂ seq = seq := by
  rw [counterpart, hs]
  exact if_pos hold

theorem counterpart_of_new {seq' : StampSeq} (hs : t₁.stamp seq = .ok stamp)
    (hnew : stamp ∉ t.stamps) (hseq : t₂.seq? stamp = some seq') :
    counterpart t t₁ t₂ seq = seq' := by
  rw [counterpart, hs]
  dsimp only
  rw [if_neg hnew, hseq]
  rfl

/-- Two tables into which the same stamps came since a third one. -/
structure SameInterned (t t₁ t₂ : StampTable) : Prop where
  coherent : t.Coherent
  left : t.InternsTo t₁
  right : t.InternsTo t₂
  mem_iff : ∀ stamp, stamp ∈ t₁.stamps ↔ stamp ∈ t₂.stamps
  small : t₁.size < UInt32.size

namespace SameInterned

theorem size_eq (h : SameInterned t t₁ t₂) : t₁.size = t₂.size :=
  h.left.size_eq h.right h.coherent h.mem_iff

theorem symm (h : SameInterned t t₁ t₂) : SameInterned t t₂ t₁ :=
  ⟨h.coherent, h.right, h.left, fun stamp => (h.mem_iff stamp).symm, h.size_eq ▸ h.small⟩

/-- The number stands for the same. -/
theorem stamp_counterpart (h : SameInterned t t₁ t₂) (seq : StampSeq) :
    t₂.stamp (counterpart t t₁ t₂ seq) = t₁.stamp seq := by
  cases hs : t₁.stamp seq with
  | error e =>
    rw [counterpart_of_error hs]
    exact stamp_eq_error h.size_eq.symm hs
  | ok stamp =>
    by_cases hold : stamp ∈ t.stamps
    · rw [counterpart_of_old hs hold]
      exact h.right.growsTo.stamp_eq (h.left.stamp_eq_of_mem h.coherent hold hs)
    · obtain ⟨hzero, hp⟩ := stamp_eq_ok hs
      have hmem := (h.mem_iff stamp).1 (List.mem_of_getElem? hp)
      obtain ⟨seq', hseq⟩ := (h.right.coherent h.coherent).exists_seq? hmem
      rw [counterpart_of_new hs hold hseq]
      exact (h.right.coherent h.coherent).stamp_eq hseq h.symm.small

theorem counterpart_counterpart (h : SameInterned t t₁ t₂) (seq : StampSeq) :
    counterpart t t₂ t₁ (counterpart t t₁ t₂ seq) = seq := by
  have hsame := h.stamp_counterpart seq
  cases hs : t₁.stamp seq with
  | error e =>
    rw [hs] at hsame
    rw [counterpart_of_error hsame, counterpart_of_error hs]
  | ok stamp =>
    rw [hs] at hsame
    by_cases hold : stamp ∈ t.stamps
    · rw [counterpart_of_old hsame hold, counterpart_of_old hs hold]
    · exact counterpart_of_new hsame hold (h.left.seq?_of_stamp h.coherent hold hs)

/-- The permutation by which the numbers of two tables differ into which the same stamps
    came. -/
def correspondence (h : SameInterned t t₁ t₂) : Equiv.Perm StampSeq where
  toFun := counterpart t t₁ t₂
  invFun := counterpart t t₂ t₁
  left_inv := h.counterpart_counterpart
  right_inv := h.symm.counterpart_counterpart

/-- Numbers from before stay. -/
theorem correspondence_of_stamp (h : SameInterned t t₁ t₂) (hs : t.stamp seq = .ok stamp) :
    h.correspondence seq = seq :=
  counterpart_of_old (h.left.growsTo.stamp_eq hs) (List.mem_of_getElem? (stamp_eq_ok hs).2)

/-- What stands for no stamp stays. -/
theorem correspondence_default (h : SameInterned t t₁ t₂) : h.correspondence default = default := by
  have hnone : t₁.stamp default = .error (.unknownStampSeq default) := if_pos rfl
  show counterpart t t₁ t₂ default = default
  exact counterpart_of_error hnone

theorem stamp_correspondence (h : SameInterned t t₁ t₂) (seq : StampSeq) :
    t₂.stamp (h.correspondence seq) = t₁.stamp seq :=
  h.stamp_counterpart seq

/-- Stamps are looked up under the numbers that correspond. -/
theorem seq?_correspondence (h : SameInterned t t₁ t₂) (stamp : Stamp) :
    t₂.seq? stamp = (t₁.seq? stamp).map h.correspondence := by
  have ht₁ := h.left.coherent h.coherent
  have ht₂ := h.right.coherent h.coherent
  cases hs : t₁.seq? stamp with
  | none => rwa [Option.map_none, ht₂.seq?_eq_none_iff, ← h.mem_iff, ← ht₁.seq?_eq_none_iff]
  | some seq =>
    have hstamp := ht₁.stamp_eq hs h.small
    rw [Option.map_some]
    by_cases hold : stamp ∈ t.stamps
    · obtain ⟨seq', hseq⟩ := h.coherent.exists_seq? hold
      obtain rfl : seq = seq' := Option.some.inj (hs.symm.trans (h.left.seq?_eq hseq))
      have hbefore := h.left.stamp_eq_of_mem h.coherent hold hstamp
      rw [h.right.seq?_eq hseq, h.correspondence_of_stamp hbefore]
    · refine h.right.seq?_of_stamp h.coherent hold ?_
      rw [h.stamp_correspondence, hstamp]

theorem number_eq (h : SameInterned t t₁ t₂) : t₂.number = h.correspondence ∘ t₁.number := by
  funext stamp
  rw [Function.comp_apply, number, number, h.seq?_correspondence]
  cases t₁.seq? stamp with
  | none => exact h.correspondence_default.symm
  | some seq => rfl

end SameInterned

end Bitemporal.StampTable
