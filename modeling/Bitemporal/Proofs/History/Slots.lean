import Bitemporal.Proofs.History
import Mathlib.Data.List.Perm.Basic

/-!
# Slots and versions

The versions of a history are kept twice over: a committed one stands in the list of
commits and has left its number in its slot, a draft stands in its slot alone. A history
is *well kept* if the two agree: the numbers in the slots are those of the committed
versions, in some order, and drafts are just what has no time of its own
(`History.WellKept`). The commits are in order then, and all versions carry what versions
of the component may carry.

The four ways in which a history grows keep it so, and so is a history of commits alone.
-/

namespace Bitemporal

namespace Slot

/-- The number of the stamp under which a slot was committed. -/
def seq? : Slot → Option StampSeq
  | .pending _ => none
  | .committed seq => some seq

@[simp] theorem seq?_pending (draft : Draft) : (pending draft).seq? = none := rfl

@[simp] theorem seq?_committed (seq : StampSeq) : (committed seq).seq? = some seq := rfl

@[simp] theorem draft?_pending (draft : Draft) : (pending draft).draft? = some draft := rfl

@[simp] theorem draft?_committed (seq : StampSeq) : (committed seq).draft? = none := rfl

end Slot

namespace History

variable {h : History} {draft : Draft} {version : Version} {payload : Payload} {slot : Nat}

theorem mem_pending_iff : draft ∈ h.pending ↔ .pending draft ∈ h.slots := by
  rw [pending, List.mem_filterMap]
  constructor
  · rintro ⟨held, hmem, hheld⟩
    cases held with
    | pending d => rwa [← Option.some.inj hheld]
    | committed seq => cases hheld
  · exact fun hmem => ⟨_, hmem, rfl⟩

/-- A slot holds a draft or a number. -/
theorem length_slots (h : History) :
    h.slots.length = (h.slots.filterMap Slot.seq?).length + h.pending.length := by
  rw [pending]
  induction h.slots with
  | nil => rfl
  | cons slot rest ih =>
    cases slot with
    | pending draft => simp [List.filterMap_cons, ih, Nat.add_assoc]
    | committed seq => simp [List.filterMap_cons, ih, Nat.add_right_comm]

/-- The slots with one of them changed. -/
theorem exists_set_slot {held : Slot} (hslot : h.slots[slot]? = some held) (changed : Slot) :
    ∃ before later, h.slots = before ++ held :: later ∧
      h.slots.set slot changed = before ++ changed :: later := by
  obtain ⟨hlt, rfl⟩ := List.getElem?_eq_some_iff.1 hslot
  obtain ⟨before, later, hslots, -, hset⟩ :
      ∃ before later, h.slots = before ++ h.slots[slot] :: later ∧ before.length = slot ∧
        h.slots.set slot changed = before ++ changed :: later := List.exists_of_set hlt
  exact ⟨before, later, hslots, hset⟩

/-- What holds of the drafts in the slots, and of the draft that another slot may hold,
    holds of the drafts if that slot is added. -/
theorem forall_pending_concat {P : Draft → Prop} {slots : List Slot} {added : Slot}
    (hP : ∀ draft, .pending draft ∈ slots → P draft)
    (hadded : ∀ draft, added = .pending draft → P draft) :
    ∀ draft, .pending draft ∈ slots ++ [added] → P draft := by
  intro draft hd
  rcases List.mem_append.1 hd with hd | hd
  · exact hP draft hd
  · exact hadded draft (List.mem_singleton.1 hd).symm

/-- The same if that slot takes the place of one of them. -/
theorem forall_pending_set {P : Draft → Prop} {slots : List Slot} {changed : Slot}
    (hP : ∀ draft, .pending draft ∈ slots → P draft)
    (hchanged : ∀ draft, changed = .pending draft → P draft) :
    ∀ draft, .pending draft ∈ slots.set slot changed → P draft := by
  intro draft hd
  rcases List.mem_or_eq_of_mem_set hd with hd | hd
  · exact hP draft hd
  · exact hchanged draft hd.symm

/-- The slots of a history account for its versions, the times of the versions for their
    standing, and all versions carry what they may. -/
structure WellKept (carries : Payload → Prop) (h : History) : Prop where
  inOrder : InOrder h.committed
  committed : ∀ v ∈ h.committed, v.stamp.isUncommitted = false ∧ carries v.payload
  pending : ∀ draft, .pending draft ∈ h.slots →
    draft.stamp.isUncommitted = true ∧ carries draft.payload
  numbers : (h.slots.filterMap Slot.seq?).Perm (h.committed.map Version.seq)

namespace WellKept

variable {carries : Payload → Prop}

theorem imp {carries' : Payload → Prop} (hk : h.WellKept carries)
    (himp : ∀ payload, carries payload → carries' payload) : h.WellKept carries' where
  inOrder := hk.inOrder
  committed v hv := (hk.committed v hv).imp_right (himp _)
  pending draft hd := (hk.pending draft hd).imp_right (himp _)
  numbers := hk.numbers

/-- Every slot is that of a committed version or of a draft. -/
theorem length_slots (hk : h.WellKept carries) :
    h.slots.length = h.committed.length + h.pending.length := by
  rw [h.length_slots, hk.numbers.length_eq, List.length_map]

/-- A draft is appended. -/
theorem drafted (hk : h.WellKept carries) (hu : draft.stamp.isUncommitted = true)
    (hp : carries draft.payload) :
    WellKept carries { h with slots := h.slots ++ [.pending draft] } where
  inOrder := hk.inOrder
  committed := hk.committed
  pending := forall_pending_concat hk.pending fun d hd => by
    rw [← Slot.pending.inj hd]
    exact ⟨hu, hp⟩
  numbers := by simpa [List.filterMap_cons] using hk.numbers

/-- A version is appended that is committed from the start. -/
theorem appended (hk : h.WellKept carries) (hc : version.stamp.isUncommitted = false)
    (hp : carries version.payload) (ho : h.checkOrder version.stamp.time = .ok ()) :
    WellKept carries { h with
      committed := h.committed ++ [version], slots := h.slots ++ [.committed version.seq] } where
  inOrder := hk.inOrder.concat ho
  committed := List.forall_mem_append.2 ⟨hk.committed, List.forall_mem_singleton.2 ⟨hc, hp⟩⟩
  pending := forall_pending_concat hk.pending fun d hd => by cases hd
  numbers := by simpa [List.filterMap_cons] using hk.numbers.append_right [version.seq]

/-- A draft is given another payload. -/
theorem replaced (hk : h.WellKept carries) (hslot : h.slots[slot]? = some (.pending draft))
    (hp : carries payload) :
    WellKept carries { h with slots := h.slots.set slot (.pending { draft with payload }) } where
  inOrder := hk.inOrder
  committed := hk.committed
  pending := forall_pending_set hk.pending fun d hd => by
    rw [← Slot.pending.inj hd]
    exact ⟨(hk.pending draft (List.mem_of_getElem? hslot)).1, hp⟩
  numbers := by
    obtain ⟨before, later, hslots, hset⟩ := exists_set_slot hslot (.pending { draft with payload })
    have hnumbers := hk.numbers
    rw [hslots] at hnumbers
    simpa [hset, List.filterMap_cons] using hnumbers

/-- A draft is committed: its slot is left with a number, and the version goes to the end. -/
theorem settled (hk : h.WellKept carries) (hslot : h.slots[slot]? = some (.pending draft))
    (hc : version.stamp.isUncommitted = false) (hp : version.payload = draft.payload)
    (ho : h.checkOrder version.stamp.time = .ok ()) :
    WellKept carries { h with
      committed := h.committed ++ [version]
      slots := h.slots.set slot (.committed version.seq) } where
  inOrder := hk.inOrder.concat ho
  committed := by
    refine List.forall_mem_append.2 ⟨hk.committed, List.forall_mem_singleton.2 ⟨hc, ?_⟩⟩
    rw [hp]
    exact (hk.pending draft (List.mem_of_getElem? hslot)).2
  pending := forall_pending_set hk.pending fun d hd => by cases hd
  numbers := by
    obtain ⟨before, later, hslots, hset⟩ := exists_set_slot hslot (.committed version.seq)
    have hnumbers := hk.numbers
    rw [hslots] at hnumbers
    simp only [List.filterMap_append, List.filterMap_cons, Slot.seq?_pending,
      Slot.seq?_committed, hset, List.map_append, List.map_cons, List.map_nil] at hnumbers ⊢
    -- the number is new among the slots, and the last among the versions
    exact (List.perm_middle.trans (hnumbers.cons _)).trans (List.perm_append_singleton ..).symm

/-- A history of commits alone. -/
theorem of_committed (ho : InOrder h.committed)
    (hc : ∀ v ∈ h.committed, v.stamp.isUncommitted = false ∧ carries v.payload)
    (hslots : h.slots = h.committed.map fun v => .committed v.seq) : h.WellKept carries where
  inOrder := ho
  committed := hc
  pending draft hd := by
    rw [hslots, List.mem_map] at hd
    obtain ⟨v, -, hv⟩ := hd
    cases hv
  numbers := by
    have hsome : (h.committed.map fun v => Slot.committed v.seq).filterMap Slot.seq? =
        h.committed.map Version.seq := by
      rw [List.filterMap_map]
      exact congrFun List.filterMap_eq_map _
    rw [hslots, hsome]

end WellKept

end History

end Bitemporal
