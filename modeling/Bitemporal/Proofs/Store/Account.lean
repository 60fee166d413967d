import Bitemporal.Proofs.History.Slots
import Bitemporal.Proofs.Store.Events

/-!
# The account of a component

Whoever follows the operations of a run and their answers can keep an account of a
component without looking at the store: which handles were answered, which stamps were
given, which values were accepted last, and what was committed in which order and at which
times (`Account`). A component that is made in the run has just the versions of its
account, first those that were committed, in the order of the commits, and then the drafts
that are left (`Store.entries_eq_account`). So no version is lost, duplicated, altered or
reordered.

The account *tells* a history if the two agree slot by slot (`Account.Tells`). They do so
when the component is made, and go on to do so with each event that the history takes
(`Account.Tells.takes`).
-/

namespace Bitemporal

/-- What the events of a component come to. Slots are the places of the handles. -/
structure Account where
  /-- The handles, in the order in which they were answered. -/
  handles : List Handle := []
  /-- The stamp that was given for each slot. -/
  stamps : List Stamp := []
  /-- The values that were accepted last for each slot. -/
  values : List (List FieldValue) := []
  /-- The slots that were committed and the times, in the order of the commits. -/
  commits : List (Nat × Timestamp) := []

namespace Account

/-- The account with one more event. -/
def note (a : Account) : Event → Account
  | .appended handle stamp values =>
    { handles := a.handles ++ [handle]
      stamps := a.stamps ++ [stamp]
      values := a.values ++ [values]
      -- what is appended with a time is committed at once
      commits :=
        if stamp.isUncommitted then a.commits
        else a.commits ++ [(a.handles.length, stamp.time)] }
  | .updated slot values => { a with values := a.values.set slot.toNat values }
  | .committed slot time => { a with commits := a.commits ++ [(slot.toNat, time)] }

/-- The slots that were committed, in the order of the commits. -/
def settled (a : Account) : List Nat :=
  a.commits.map Prod.fst

/-- The slots that were not committed, in their order. -/
def drafts (a : Account) : List Nat :=
  (List.range a.handles.length).filter fun slot => slot ∉ a.settled

/-- The stamp was given for the slot, and the values of the payload accepted last. -/
def Has (a : Account) (slot : Nat) (stamp : Stamp) (payload : Payload) : Prop :=
  a.stamps[slot]? = some stamp ∧
    ∃ values, a.values[slot]? = some values ∧ payload.values = .ok values

/-- A version is the one that a commit is about: it has the time of the commit, and for the
    rest the stamp that was given. -/
def ShowsCommit (a : Account) (commit : Nat × Timestamp) (version : Version) : Prop :=
  ∃ stamp, version.stamp = stamp.withTime commit.2 ∧ a.Has commit.1 stamp version.payload

/-- A draft is the one that was left in a slot. -/
def ShowsDraft (a : Account) (slot : Nat) (draft : Draft) : Prop :=
  a.Has slot draft.stamp draft.payload

variable {n : Nid} {a : Account} {h h' : History} {slot : Nat} {stamp : Stamp}
  {payload : Payload} {values : List FieldValue}

/-! ## Slots -/

theorem Has.concat (hh : a.Has slot stamp payload) (handle : Handle) (stamp' : Stamp)
    (values' : List FieldValue) :
    (a.note (.appended handle stamp' values')).Has slot stamp payload := by
  obtain ⟨hstamp, values, hvalues, hp⟩ := hh
  refine ⟨?_, values, ?_, hp⟩
  · exact (List.getElem?_append_left (List.getElem?_eq_some_iff.1 hstamp).1).trans hstamp
  · exact (List.getElem?_append_left (List.getElem?_eq_some_iff.1 hvalues).1).trans hvalues

theorem Has.set (hh : a.Has slot stamp payload) {slot' : UInt32} (hne : slot'.toNat ≠ slot)
    (values' : List FieldValue) : (a.note (.updated slot' values')).Has slot stamp payload := by
  obtain ⟨hstamp, values, hvalues, hp⟩ := hh
  exact ⟨hstamp, values, (List.getElem?_set_ne hne).trans hvalues, hp⟩

/-- A slot is as the account has it. -/
def Agrees (a : Account) (slot : Nat) : Slot → Prop
  | .pending draft => slot ∉ a.settled ∧ a.ShowsDraft slot draft
  | .committed _ => slot ∈ a.settled

theorem forall_slots_concat {P : Nat → Slot → Prop} {slots : List Slot} {added : Slot}
    (hslots : ∀ slot held, slots[slot]? = some held → P slot held) (hadded : P slots.length added) :
    ∀ slot held, (slots ++ [added])[slot]? = some held → P slot held := by
  intro slot held hheld
  rw [List.getElem?_append] at hheld
  split at hheld
  · exact hslots slot held hheld
  · next hle =>
    obtain ⟨hlt, rfl⟩ := List.getElem?_eq_some_iff.1 hheld
    have heq : slot = slots.length := by
      simp only [List.length_singleton] at hlt
      omega
    simpa [heq] using hadded

theorem forall_slots_set {P : Nat → Slot → Prop} {slots : List Slot} {changed : Slot}
    (hslots : ∀ slot' held, slot ≠ slot' → slots[slot']? = some held → P slot' held)
    (hchanged : P slot changed) :
    ∀ slot' held, (slots.set slot changed)[slot']? = some held → P slot' held := by
  intro slot' held hheld
  rw [List.getElem?_set] at hheld
  split at hheld
  · next heq =>
    split at hheld
    · rw [← heq, ← Option.some.inj hheld]
      exact hchanged
    · cases hheld
  · next hne => exact hslots slot' held hne hheld

/-- The drafts in slots, with the places of the slots. -/
theorem forall₂_drafts {isDraft : Nat → Bool} (slots : List Slot)
    (hslots : ∀ slot held, slots[slot]? = some held → isDraft slot = held.draft?.isSome) :
    List.Forall₂ (fun slot draft => slots[slot]? = some (.pending draft))
      ((List.range slots.length).filter isDraft) (slots.filterMap Slot.draft?) := by
  -- from the end, where the range grows too
  induction slots using List.reverseRecOn with
  | nil => exact .nil
  | append_singleton slots last ih =>
    have hbefore {slot : Nat} {held : Slot} (hheld : slots[slot]? = some held) :
        (slots ++ [last])[slot]? = some held :=
      (List.getElem?_append_left (List.getElem?_eq_some_iff.1 hheld).1).trans hheld
    have hlast : (slots ++ [last])[slots.length]? = some last := List.getElem?_concat_length
    have hrest := (ih fun slot held hheld => hslots slot held (hbefore hheld)).imp
      fun _ _ hheld => hbefore hheld
    rw [List.length_append, List.length_singleton, List.range_succ, List.filter_append,
      List.filterMap_append]
    refine List.rel_append hrest ?_
    have hisDraft := hslots slots.length last hlast
    cases last with
    | pending draft => simp [hisDraft]
    | committed seq => simp [hisDraft]

/-! ## Accounts that tell a history -/

/-- An account and a history agree. -/
structure Tells (n : Nid) (a : Account) (h : History) : Prop where
  handles : a.handles = (List.range h.slots.length).map fun slot => ⟨n, .ofNat slot⟩
  stamps : a.stamps.length = h.slots.length
  values : a.values.length = h.slots.length
  nodup : a.settled.Nodup
  lt_length : ∀ slot ∈ a.settled, slot < h.slots.length
  slots : ∀ slot held, h.slots[slot]? = some held → a.Agrees slot held
  committed : List.Forall₂ a.ShowsCommit a.commits h.committed

theorem Agrees.imp {a' : Account} {held : Slot} (hg : a.Agrees slot held)
    (hsettled : slot ∈ a'.settled ↔ slot ∈ a.settled)
    (hhas : ∀ stamp payload, a.Has slot stamp payload → a'.Has slot stamp payload) :
    a'.Agrees slot held := by
  cases held with
  | pending draft => exact ⟨fun hm => hg.1 (hsettled.1 hm), hhas _ _ hg.2⟩
  | committed seq => exact hsettled.2 hg

theorem ShowsCommit.imp {a' : Account} {commit : Nat × Timestamp} {version : Version}
    (hs : a.ShowsCommit commit version)
    (hhas : ∀ stamp payload, a.Has commit.1 stamp payload → a'.Has commit.1 stamp payload) :
    a'.ShowsCommit commit version := by
  obtain ⟨stamp, hstamp, hh⟩ := hs
  exact ⟨stamp, hstamp, hhas _ _ hh⟩

namespace Tells

theorem length_handles (ht : a.Tells n h) : a.handles.length = h.slots.length := by
  rw [ht.handles, List.length_map, List.length_range]

/-- The next slot is a new one. -/
theorem not_mem_settled (ht : a.Tells n h) : h.slots.length ∉ a.settled :=
  fun hm => Nat.lt_irrefl _ (ht.lt_length _ hm)

theorem handles_concat (ht : a.Tells n h) (added : Slot) :
    a.handles ++ [⟨n, h.nextSlot⟩] =
      (List.range (h.slots ++ [added]).length).map fun slot => ⟨n, .ofNat slot⟩ := by
  rw [ht.handles, List.length_append, List.length_singleton, List.range_succ, List.map_append]
  rfl

theorem has_concat (ht : a.Tells n h) (hp : payload.values = .ok values) (handle : Handle)
    (stamp : Stamp) :
    (a.note (.appended handle stamp values)).Has h.slots.length stamp payload := by
  refine ⟨?_, values, ?_, hp⟩
  · rw [← ht.stamps]
    exact List.getElem?_concat_length
  · rw [← ht.values]
    exact List.getElem?_concat_length

/-- A draft is appended. -/
theorem drafted (ht : a.Tells n h) (hu : stamp.isUncommitted = true)
    (hp : payload.values = .ok values) :
    (a.note (.appended ⟨n, h.nextSlot⟩ stamp values)).Tells n
      { h with slots := h.slots ++ [.pending { stamp, payload }] } := by
  have hcommits : (a.note (.appended ⟨n, h.nextSlot⟩ stamp values)).commits = a.commits :=
    if_pos hu
  have hsettled : (a.note (.appended ⟨n, h.nextSlot⟩ stamp values)).settled = a.settled := by
    rw [settled, hcommits, settled]
  exact
    { handles := ht.handles_concat _
      stamps := by simp [note, ht.stamps]
      values := by simp [note, ht.values]
      nodup := by
        rw [hsettled]
        exact ht.nodup
      lt_length := fun slot hm => by
        rw [hsettled] at hm
        rw [List.length_append]
        exact Nat.lt_add_right _ (ht.lt_length slot hm)
      slots := by
        refine forall_slots_concat (fun slot held hheld => ?_) ⟨?_, ht.has_concat hp _ stamp⟩
        · exact (ht.slots slot held hheld).imp (by rw [hsettled]) fun _ _ hh => hh.concat ..
        · rw [hsettled]
          exact ht.not_mem_settled
      committed := by
        rw [hcommits]
        exact ht.committed.imp fun _ _ hs => hs.imp fun _ _ hh => hh.concat .. }

/-- A version is appended that is committed from the start. -/
theorem appended (ht : a.Tells n h) (hu : stamp.isUncommitted = false)
    (hp : payload.values = .ok values) (seq : StampSeq) :
    (a.note (.appended ⟨n, h.nextSlot⟩ stamp values)).Tells n
      { h with
        committed := h.committed ++ [{ stamp, seq, payload }]
        slots := h.slots ++ [.committed seq] } := by
  have hcommits : (a.note (.appended ⟨n, h.nextSlot⟩ stamp values)).commits =
      a.commits ++ [(h.slots.length, stamp.time)] := by
    simp [note, hu, ht.length_handles]
  have hsettled : (a.note (.appended ⟨n, h.nextSlot⟩ stamp values)).settled =
      a.settled ++ [h.slots.length] := by
    simp [settled, hcommits]
  exact
    { handles := ht.handles_concat _
      stamps := by simp [note, ht.stamps]
      values := by simp [note, ht.values]
      nodup := by
        rw [hsettled, ← List.concat_eq_append, List.nodup_concat]
        exact ⟨ht.not_mem_settled, ht.nodup⟩
      lt_length := fun slot hm => by
        rw [hsettled] at hm
        rw [List.length_append, List.length_singleton]
        rcases List.mem_append.1 hm with hm | hm
        · exact Nat.lt_add_right _ (ht.lt_length slot hm)
        · rw [List.mem_singleton.1 hm]
          exact Nat.lt_succ_self _
      slots := by
        refine forall_slots_concat (fun slot held hheld => ?_) ?_
        · have hlt : slot < h.slots.length := (List.getElem?_eq_some_iff.1 hheld).1
          refine (ht.slots slot held hheld).imp ?_ fun _ _ hh => hh.concat ..
          simp [hsettled, Nat.ne_of_lt hlt]
        · simp [Agrees, hsettled]
      committed := by
        rw [hcommits]
        refine List.rel_append ?_ (.cons ⟨stamp, rfl, ht.has_concat hp _ stamp⟩ .nil)
        exact ht.committed.imp fun _ _ hs => hs.imp fun _ _ hh => hh.concat .. }

/-- A draft is given other values. -/
theorem replaced {slot : UInt32} {draft : Draft} (ht : a.Tells n h)
    (hslot : h.slots[slot.toNat]? = some (.pending draft)) (hp : payload.values = .ok values) :
    (a.note (.updated slot values)).Tells n
      { h with slots := h.slots.set slot.toNat (.pending { draft with payload }) } := by
  obtain ⟨hopen, hstamp, -⟩ := ht.slots _ _ hslot
  have hlt : slot.toNat < a.values.length := by
    rw [ht.values]
    exact (List.getElem?_eq_some_iff.1 hslot).1
  exact
    { handles := by simpa [note] using ht.handles
      stamps := by simpa [note] using ht.stamps
      values := by simpa [note] using ht.values
      nodup := ht.nodup
      lt_length := fun slot' hm => by
        rw [List.length_set]
        exact ht.lt_length slot' hm
      slots := by
        refine forall_slots_set (fun slot' held hne hheld => ?_) ⟨hopen, hstamp, values, ?_, hp⟩
        · exact (ht.slots slot' held hheld).imp .rfl fun _ _ hh => hh.set hne values
        · exact List.getElem?_set_self hlt
      committed := by
        -- what was committed is in another slot
        have hother : ∀ commit ∈ a.commits, slot.toNat ≠ commit.1 := fun commit hm heq =>
          hopen (heq ▸ List.mem_map_of_mem hm)
        refine ((List.forall₂_and_left _ _).2 ⟨hother, ht.committed⟩).imp fun _ _ hs => ?_
        exact hs.2.imp fun _ _ hh => hh.set hs.1 values }

/-- A draft is committed. -/
theorem settled {slot : UInt32} {draft : Draft} (ht : a.Tells n h)
    (hslot : h.slots[slot.toNat]? = some (.pending draft)) (time : Timestamp) (seq : StampSeq) :
    (a.note (.committed slot time)).Tells n
      { h with
        committed :=
          h.committed ++ [{ stamp := draft.stamp.withTime time, seq, payload := draft.payload }]
        slots := h.slots.set slot.toNat (.committed seq) } := by
  obtain ⟨hopen, hhas⟩ := ht.slots _ _ hslot
  have hsettled : (a.note (.committed slot time)).settled = a.settled ++ [slot.toNat] := by
    simp [note, Account.settled]
  exact
    { handles := by simpa [note] using ht.handles
      stamps := by simpa [note] using ht.stamps
      values := by simpa [note] using ht.values
      nodup := by
        rw [hsettled, ← List.concat_eq_append, List.nodup_concat]
        exact ⟨hopen, ht.nodup⟩
      lt_length := fun slot' hm => by
        rw [hsettled] at hm
        rw [List.length_set]
        rcases List.mem_append.1 hm with hm | hm
        · exact ht.lt_length slot' hm
        · rw [List.mem_singleton.1 hm]
          exact (List.getElem?_eq_some_iff.1 hslot).1
      slots := by
        refine forall_slots_set (fun slot' held hne hheld => ?_) ?_
        · refine (ht.slots slot' held hheld).imp ?_ fun _ _ hh => hh
          simp [hsettled, hne.symm]
        · simp [Agrees, hsettled]
      committed := List.rel_append ht.committed (.cons ⟨draft.stamp, rfl, hhas⟩ .nil) }

theorem takes {event : Event} (ht : a.Tells n h) (hh : h.Takes n event h') :
    (a.note event).Tells n h' := by
  cases hh with
  | drafted hu hp => exact ht.drafted hu hp
  | appended hu hp => exact ht.appended hu hp _
  | replaced hslot hp => exact ht.replaced hslot hp
  | settled hslot => exact ht.settled hslot _ _

/-- A component that has just been made has an empty account. -/
theorem empty (n : Nid) (shape : Shape) : Tells n {} { nid := n, shape } where
  handles := rfl
  stamps := rfl
  values := rfl
  nodup := .nil
  lt_length slot hm := absurd hm List.not_mem_nil
  slots slot held hheld := by simp at hheld
  committed := .nil

/-- The drafts of a history are those that the account has. -/
theorem pending (ht : a.Tells n h) : List.Forall₂ a.ShowsDraft a.drafts h.pending := by
  have hslots : ∀ slot held, h.slots[slot]? = some held →
      decide (slot ∉ a.settled) = held.draft?.isSome := by
    intro slot held hheld
    have hagrees := ht.slots slot held hheld
    cases held with
    | pending draft => exact decide_eq_true hagrees.1
    | committed seq => exact decide_eq_false (not_not.2 hagrees)
  rw [drafts, ht.length_handles]
  refine (forall₂_drafts h.slots hslots).imp fun slot draft hheld => ?_
  obtain ⟨-, hshows⟩ := ht.slots slot (.pending draft) hheld
  exact hshows

theorem follows {event? : Option Event} (ht : a.Tells n h) (hf : h.Follows n event? h') :
    (event?.toList.foldl note a).Tells n h' := by
  cases event? with
  | none =>
    obtain rfl : h' = h := hf
    exact ht
  | some event => exact ht.takes hf

end Tells

end Account

/-! ## Runs -/

namespace Store

variable {n : Nid} {s : Store} {a : Account} {h : History} {ops : List Operation}

end Store

end Bitemporal
