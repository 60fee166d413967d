import Bitemporal.Proofs.Store.Checks
import Bitemporal.Proofs.Store.Events
import Bitemporal.Proofs.Store.Indexing
import Mathlib

/-!
# What becomes of a handle

A handle leads to a slot of a history (`Store.slot?`). What a slot holds moves in one
direction: a draft stays a draft, with other values perhaps, until it is committed, and a
slot that was committed keeps its number. This is what each event does to a slot
(`History.Takes.slot_of_committed`, `History.Takes.slot_of_pending`), so it is what an
operation and a run do to it.

A handle is *settled* by the operation that commits its version, be it the append itself or
a commit later on (`Store.Operation.Settles`). From then on every further commit and every
update is refused, and names the number under which the handle was settled
(`Store.Settled`). As long as it is not settled, it waits for a commit that is accepted at
every time which is not before the last commit of the component, so no handle gets stuck
(`Store.handles_settle_once`).
-/

namespace Bitemporal

/-! ## Slots -/

namespace History

variable {n : Nid} {h h' : History} {event : Event} {slot : Nat} {seq : StampSeq} {draft : Draft}

/-- The next slot has the number of slots for its number, as long as the words suffice. -/
theorem toNat_nextSlot (hroom : h.slots.length < UInt32.size) :
    h.nextSlot.toNat = h.slots.length :=
  UInt32.toNat_ofNat_of_lt hroom

/-- A slot that was committed keeps its number. -/
theorem Takes.slot_of_committed (ht : h.Takes n event h')
    (hslot : h.slots[slot]? = some (.committed seq)) :
    h'.slots[slot]? = some (.committed seq) := by
  have hlt : slot < h.slots.length := (List.getElem?_eq_some_iff.1 hslot).1
  -- what is changed is a slot with a draft, so it is another one
  have hother {i : Nat} {held : Slot} {d : Draft} (hd : h.slots[i]? = some (.pending d)) :
      (h.slots.set i held)[slot]? = some (.committed seq) := by
    have hne : i ≠ slot := by
      rintro rfl
      rw [hslot] at hd
      cases hd
    rw [List.getElem?_set_ne hne, hslot]
  cases ht with
  | drafted hu hp => rwa [List.getElem?_append_left hlt]
  | appended hu hp => rwa [List.getElem?_append_left hlt]
  | replaced hd hp => exact hother hd
  | settled hd => exact hother hd

/-- A draft stays in its slot unless the slot is committed. -/
theorem Takes.slot_of_pending (ht : h.Takes n event h')
    (hslot : h.slots[slot]? = some (.pending draft)) :
    (∃ draft', h'.slots[slot]? = some (.pending draft')) ∨
      ∃ place time, place.toNat = slot ∧ event = .committed place time := by
  have hlt : slot < h.slots.length := (List.getElem?_eq_some_iff.1 hslot).1
  cases ht with
  | drafted hu hp => exact .inl ⟨draft, by rwa [List.getElem?_append_left hlt]⟩
  | appended hu hp => exact .inl ⟨draft, by rwa [List.getElem?_append_left hlt]⟩
  | @replaced place d payload values hd hp =>
    left
    by_cases heq : place.toNat = slot
    · subst heq
      exact ⟨{ d with payload }, List.getElem?_set_self hlt⟩
    · exact ⟨draft, by rw [List.getElem?_set_ne heq, hslot]⟩
  | @settled place d time seq hd =>
    by_cases heq : place.toNat = slot
    · exact .inr ⟨place, time, heq, rfl⟩
    · exact .inl ⟨draft, by rw [List.getElem?_set_ne heq, hslot]⟩

end History

namespace Store

variable {s t : Store} {handle : Handle} {seq : StampSeq} {draft : Draft} {h : History}

/-- What the slot of a handle holds. -/
def slot? (s : Store) (handle : Handle) : Option Slot :=
  (s.histories.get? handle.nid).bind fun h => h.slots[handle.slot.toNat]?

theorem slot?_eq_some_iff {held : Slot} :
    s.slot? handle = some held ↔
      ∃ h, s.histories.get? handle.nid = some h ∧ h.slots[handle.slot.toNat]? = some held :=
  Option.bind_eq_some_iff

/-- The values fit what versions of a component carry. -/
def Fits (s : Store) (nid : Nid) (values : List FieldValue) : Prop :=
  ∃ h payload, s.history nid = .ok h ∧ s.payloadFor h values = .ok payload

/-! ## Operations that settle a handle -/

/-- An operation commits the version of a handle, under the stamp with a number: by a commit
    of the draft, or because the version was committed when it was appended. In the second
    case the slots must not have outrun the words that number them. -/
inductive Operation.Settles (handle : Handle) (seq : StampSeq) (s : Store) : Operation → Prop
  | commit {time : Timestamp} : ((commit handle time).perform s).1 = .ok (.stamp seq) →
      Settles handle seq s (.commit handle time)
  | append {stamp : Stamp} {values : List FieldValue} :
      (∀ h, s.history handle.nid = .ok h → h.slots.length < UInt32.size) →
      stamp.isUncommitted = false →
      ((append handle.nid stamp values).perform s).1 = .ok (.version handle) →
      (((append handle.nid stamp values).after s).committedOf handle.nid).getLast?.map Version.seq =
        some seq →
      Settles handle seq s (.append handle.nid stamp values)

/-- Nothing can be done to a handle any more: what fits the component is refused with the
    number under which the handle was settled, and nothing settles it again. -/
structure Settled (s : Store) (handle : Handle) (seq : StampSeq) : Prop where
  commit : ∀ time, time ≠ .uncommitted →
    (Operation.commit handle time).perform s = (.error (.alreadyCommitted handle.nid seq), s)
  update : ∀ values, s.Fits handle.nid values →
    (Operation.updateDraft handle values).perform s = (.error (.alreadyCommitted handle.nid seq), s)
  once : ∀ op seq', ¬ Operation.Settles handle seq' s op

theorem Committed.slot? {time : Timestamp} (hc : s.Committed handle time (.ok seq) t) :
    t.slot? handle = some (.committed seq) := by
  cases hc with
  | committed ht hget hslot ho hi =>
    have hlt := (List.getElem?_eq_some_iff.1 hslot).1
    exact slot?_eq_some_iff.2 ⟨_, Table.get?_insert_self .., List.getElem?_set_self hlt⟩

theorem Appended.slot? {stamp : Stamp} {values : List FieldValue}
    (ha : s.Appended handle.nid stamp values (.ok handle) t) (hc : stamp.isUncommitted = false)
    (hroom : ∀ h, s.history handle.nid = .ok h → h.slots.length < UInt32.size) :
    ∃ version, (t.committedOf handle.nid).getLast? = some version ∧
      t.slot? handle = some (.committed version.seq) := by
  obtain ⟨nid, slot⟩ := handle
  cases ha with
  | drafted hget hp hu =>
    rw [hc] at hu
    cases hu
  | @committed h payload seq stamps hget hp hu ho hi =>
    refine ⟨{ stamp, seq, payload }, ?_, slot?_eq_some_iff.2 ⟨_, Table.get?_insert_self .., ?_⟩⟩
    · simp [committedOf]
    · rw [History.toNat_nextSlot (hroom h (history_eq_ok_iff.2 hget))]
      exact List.getElem?_concat_length

/-- What is committed by its handle was a draft. -/
theorem Committed.slot?_before {time : Timestamp} (hc : s.Committed handle time (.ok seq) t) :
    ∃ draft, s.slot? handle = some (.pending draft) := by
  cases hc with
  | committed ht hget hslot ho hi => exact ⟨_, slot?_eq_some_iff.2 ⟨_, hget, hslot⟩⟩

/-- A version that is appended gets a slot that was not there. -/
theorem Appended.slot?_before {stamp : Stamp} {values : List FieldValue}
    (ha : s.Appended handle.nid stamp values (.ok handle) t)
    (hroom : ∀ h, s.history handle.nid = .ok h → h.slots.length < UInt32.size) :
    s.slot? handle = none := by
  obtain ⟨nid, slot⟩ := handle
  have hnew {h : History} (hget : s.histories.get? nid = some h) :
      s.slot? ⟨nid, h.nextSlot⟩ = none := by
    rw [Store.slot?, hget, Option.bind_some,
      History.toNat_nextSlot (hroom h (history_eq_ok_iff.2 hget))]
    exact List.getElem?_eq_none (Nat.le_refl _)
  cases ha with
  | drafted hget hp hu => exact hnew hget
  | committed hget hp hu ho hi => exact hnew hget

/-- The slot of a handle that is settled has the number. -/
theorem Operation.Settles.slot? {op : Operation} (hop : op.Settles handle seq s) :
    (op.after s).slot? handle = some (.committed seq) := by
  cases hop with
  | @commit time hanswer => exact (Operation.committed_of_answer hanswer).slot?
  | @append stamp values hroom hu hanswer hlast =>
    obtain ⟨version, hversion, hslot⟩ :=
      (Operation.appended_of_answer hanswer).slot? hu hroom
    rw [hversion] at hlast
    obtain rfl : version.seq = seq := Option.some.inj hlast
    exact hslot

/-! ## Slots along a run -/

/-- What an operation commits as a draft, it commits by its handle. -/
theorem Operation.eq_commit_of_eventOf? {op : Operation} {n : Nid} {answer : Except Error Reply}
    {place : UInt32} {time : Timestamp}
    (hevent : op.eventOf? n answer = some (.committed place time)) :
    op = .commit ⟨n, place⟩ time := by
  rw [eventOf?] at hevent
  split at hevent
  · next htarget =>
    cases op with
    | commit handle time' =>
      obtain rfl := Option.some.inj htarget
      cases answer with
      | error e => cases hevent
      | ok reply =>
        obtain ⟨rfl, rfl⟩ := Event.committed.inj (Option.some.inj hevent)
        rfl
    | append nid stamp values => rcases answer with e | _ | _ | _ | _ | _ <;> cases hevent
    | updateDraft handle values => rcases answer with e | reply <;> cases hevent
    | _ => cases htarget
  · cases hevent

/-- A slot that was committed keeps its number. -/
theorem slot?_after_of_committed {op : Operation} (hop : op ≠ .reset)
    (hslot : s.slot? handle = some (.committed seq)) :
    (op.after s).slot? handle = some (.committed seq) := by
  obtain ⟨h, hget, hheld⟩ := slot?_eq_some_iff.1 hslot
  obtain ⟨h', hget', hf⟩ := Operation.follows hop hget
  refine slot?_eq_some_iff.2 ⟨h', hget', ?_⟩
  cases hevent : op.eventOf? handle.nid (op.perform s).1 with
  | none =>
    rw [hevent] at hf
    obtain rfl : h' = h := hf
    exact hheld
  | some event =>
    rw [hevent] at hf
    exact History.Takes.slot_of_committed hf hheld

theorem slot?_run_of_committed {ops : List Operation} (hops : ∀ op ∈ ops, op ≠ .reset)
    (hslot : s.slot? handle = some (.committed seq)) :
    (s.run ops).slot? handle = some (.committed seq) :=
  run_induction (P := fun t => t.slot? handle = some (.committed seq)) hslot
    fun op hop _ ht => slot?_after_of_committed (hops op hop) ht

/-- A draft stays in its slot unless the operation settles the handle. -/
theorem slot?_after_of_pending {op : Operation} (hop : op ≠ .reset)
    (hslot : s.slot? handle = some (.pending draft)) :
    (∃ draft', (op.after s).slot? handle = some (.pending draft')) ∨
      ∃ seq, op.Settles handle seq s := by
  obtain ⟨h, hget, hheld⟩ := slot?_eq_some_iff.1 hslot
  obtain ⟨h', hget', hf⟩ := Operation.follows hop hget
  cases hevent : op.eventOf? handle.nid (op.perform s).1 with
  | none =>
    rw [hevent] at hf
    obtain rfl : h' = h := hf
    exact .inl ⟨draft, slot?_eq_some_iff.2 ⟨h', hget', hheld⟩⟩
  | some event =>
    rw [hevent] at hf
    obtain ⟨draft', hheld'⟩ | ⟨place, time, hplace, rfl⟩ := History.Takes.slot_of_pending hf hheld
    · exact .inl ⟨draft', slot?_eq_some_iff.2 ⟨h', hget', hheld'⟩⟩
    · obtain rfl : place = handle.slot := UInt32.toNat_inj.1 hplace
      obtain rfl := Operation.eq_commit_of_eventOf? hevent
      -- an event of a commit is that it was answered
      obtain ⟨answer, hanswer, -⟩ := Operation.exists_committed s handle time
      cases answer with
      | error e =>
        rw [hanswer, Except.map, Operation.eventOf?_refused] at hevent
        cases hevent
      | ok seq => exact .inr ⟨seq, .commit hanswer⟩

/-- As long as a handle is not settled in a run, it leads to a draft. -/
theorem slot?_run_of_pending {ops : List Operation} (hops : ∀ op ∈ ops, op ≠ .reset)
    (hslot : s.slot? handle = some (.pending draft)) :
    (∃ draft', (s.run ops).slot? handle = some (.pending draft')) ∨
      ∃ before op later seq, ops = before ++ op :: later ∧ op.Settles handle seq (s.run before) := by
  induction ops generalizing s draft with
  | nil => exact .inl ⟨draft, hslot⟩
  | cons op ops ih =>
    obtain ⟨draft', hslot'⟩ | ⟨seq, hsettles⟩ :=
      slot?_after_of_pending (hops op List.mem_cons_self) hslot
    · obtain hpending | ⟨before, op', later, seq, rfl, hsettles⟩ :=
        ih (fun op' hop' => hops op' (List.mem_cons_of_mem _ hop')) hslot'
      · exact .inl hpending
      · exact .inr ⟨op :: before, op', later, seq, rfl, hsettles⟩
    · exact .inr ⟨[], op, ops, seq, rfl, hsettles⟩

/-! ## What is answered -/

/-- A commit of a draft passes its checks just if it has a time, and that is not before the
    last commit. -/
theorem check_commit_of_pending {time : Timestamp} (hget : s.histories.get? handle.nid = some h)
    (hslot : h.slots[handle.slot.toNat]? = some (.pending draft)) :
    (Operation.commit handle time).check s = .ok () ↔
      time ≠ .uncommitted ∧ ∀ last, h.lastTime? = some last → last ≤ time := by
  have hdraft : h.draft handle.slot = .ok draft := by rw [History.draft, hslot]
  have horder : h.checkOrder time = .ok () ↔ ∀ last, h.lastTime? = some last → last ≤ time := by
    rw [History.checkOrder]
    cases h.lastTime? with
    | none => simp
    | some last => by_cases hlt : time < last <;> simp [hlt, ← Std.not_lt]
  rw [← horder, Operation.check]
  by_cases htime : time = .uncommitted
  · simp [htime, Timestamp.isUncommitted, throw, throwThe, MonadExceptOf.throw]
  · cases ho : h.checkOrder time <;>
      simp [htime, Timestamp.isUncommitted, history_eq_ok_iff.2 hget, History.checkCommit, hdraft,
        ho, pure, Except.pure, bind, Except.bind]

theorem draft_of_committed (hnid : h.nid = handle.nid)
    (hslot : h.slots[handle.slot.toNat]? = some (.committed seq)) :
    h.draft handle.slot = .error (.alreadyCommitted handle.nid seq) := by
  rw [History.draft, hslot, hnid]

/-- A handle whose slot was committed is settled for good. -/
theorem settled_of_slot? (hs : s.Indexed) (hslot : s.slot? handle = some (.committed seq)) :
    s.Settled handle seq := by
  obtain ⟨h, hget, hheld⟩ := slot?_eq_some_iff.1 hslot
  have hh := history_eq_ok_iff.2 hget
  have hdraft := draft_of_committed (hs.nid hget) hheld
  refine ⟨fun time htime => ?_, fun values hfits => ?_, fun op seq' hsettles => ?_⟩
  · refine Operation.perform_of_check_eq_error ?_
    simp [Operation.check, htime, Timestamp.isUncommitted, hh, History.checkCommit, hdraft, bind,
      Except.bind]
  · refine Operation.perform_of_check_eq_error ?_
    obtain ⟨h', payload, hh', hp⟩ := hfits
    obtain rfl : h = h' := Except.ok.inj (hh.symm.trans hh')
    simp [Operation.check, hh, hp, hdraft, bind, Except.bind]
  · cases hsettles with
    | commit hanswer =>
      obtain ⟨draft, hpending⟩ := (Operation.committed_of_answer hanswer).slot?_before
      rw [hslot] at hpending
      cases hpending
    | append hroom hu hanswer hlast =>
      have hnone := (Operation.appended_of_answer hanswer).slot?_before hroom
      rw [hslot] at hnone
      cases hnone

/-- A commit of a draft is answered just if it has a time, and that is not before the last
    commit of the component. -/
theorem commit_of_pending {time : Timestamp} (hget : s.histories.get? handle.nid = some h)
    (hslot : h.slots[handle.slot.toNat]? = some (.pending draft)) :
    (∃ seq, ((Operation.commit handle time).perform s).1 = .ok (.stamp seq)) ↔
      time ≠ .uncommitted ∧ ∀ last, h.lastTime? = some last → last ≤ time := by
  rw [← check_commit_of_pending hget hslot]
  constructor
  · rintro ⟨seq, hanswer⟩
    cases hc : (Operation.commit handle time).check s with
    | error e =>
      rw [Operation.perform_of_check_eq_error hc] at hanswer
      cases hanswer
    | ok u => rfl
  · intro hc
    obtain ⟨reply, t, hperform⟩ := Operation.exists_reply_of_check_eq_ok (.commit handle time) hc
    obtain ⟨answer, hanswer, -⟩ := Operation.exists_committed s handle time
    cases answer with
    | error e =>
      rw [hperform] at hanswer
      cases hanswer
    | ok seq => exact ⟨seq, hanswer⟩

/-- Each handle is settled at most once, and never gets stuck. A commit of a draft is answered
    just if it has a time that is not before the last commit of the component, and leaves the
    draft if it is refused; so along a run without a reset the handle leads to a draft until
    some operation settles it. Once it is settled under a number, the handle is settled for
    good, whatever is done: further commits, and updates that fit, are refused with that number
    and change nothing. -/
theorem handles_settle_once (hs : s.Reachable) (handle : Handle) :
    (∀ h draft time, s.history handle.nid = .ok h →
      h.slots[handle.slot.toNat]? = some (.pending draft) →
      ((∃ seq, ((Operation.commit handle time).perform s).1 = .ok (.stamp seq)) ↔
        time ≠ .uncommitted ∧ ∀ last, h.lastTime? = some last → last ≤ time) ∧
      ∀ e, ((Operation.commit handle time).perform s).1 = .error e →
        ((Operation.commit handle time).after s).slot? handle = some (.pending draft)) ∧
    (∀ draft ops, s.slot? handle = some (.pending draft) → (∀ op ∈ ops, op ≠ .reset) →
      (∃ draft', (s.run ops).slot? handle = some (.pending draft')) ∨
        ∃ before op later seq,
          ops = before ++ op :: later ∧ op.Settles handle seq (s.run before)) ∧
    ∀ (op : Operation) seq later, op.Settles handle seq s → (∀ op' ∈ later, op' ≠ .reset) →
      ((op.after s).run later).Settled handle seq := by
  refine ⟨fun h draft time hh hslot => ?_, fun draft ops hslot hops => ?_,
    fun op seq later hsettles hlater => ?_⟩
  · have hget := history_eq_ok hh
    refine ⟨commit_of_pending hget hslot, fun e hrefused => ?_⟩
    obtain ⟨-, hleaves⟩ := refused_leaves_store (.commit handle time) s e
    rw [hleaves hrefused]
    exact slot?_eq_some_iff.2 ⟨h, hget, hslot⟩
  · exact slot?_run_of_pending hops hslot
  · have hreach : ((op.after s).run later).Reachable := hs.run (op :: later)
    exact settled_of_slot? (indexed_of_reachable hreach)
      (slot?_run_of_committed hlater hsettles.slot?)

/-- The draft of the founding run cannot be committed before the last commit, but at its time,
    and the first version of the run was settled as it was appended. -/
theorem handles_settle_once_of_founding :
    (¬ ∃ seq, ((Operation.commit ⟨⟨2⟩, 2⟩ ⟨15⟩).perform (empty.run founding)).1 =
      .ok (.stamp seq)) ∧
    (∃ draft, ((Operation.commit ⟨⟨2⟩, 2⟩ ⟨15⟩).after (empty.run founding)).slot? ⟨⟨2⟩, 2⟩ =
      some (.pending draft)) ∧
    (∃ seq, ((Operation.commit ⟨⟨2⟩, 2⟩ ⟨20⟩).perform (empty.run founding)).1 =
      .ok (.stamp seq)) ∧
    (((Operation.commit ⟨⟨2⟩, 2⟩ ⟨30⟩).after (empty.run founding)).run
      [.append ⟨2⟩ (foundingStamp ⟨30⟩) [.nid ⟨9⟩], .rebuildIndex]).Settled ⟨⟨2⟩, 2⟩ ⟨3⟩ ∧
    (((Operation.append ⟨2⟩ (foundingStamp ⟨10⟩) [.nid ⟨1⟩]).after
      (empty.run (founding.take 3))).run (founding.drop 4)).Settled ⟨⟨2⟩, 0⟩ ⟨1⟩ := by
  obtain ⟨h, draft, hh, hslot, hlast⟩ : ∃ h draft, (empty.run founding).history ⟨2⟩ = .ok h ∧
      h.slots[2]? = some (.pending draft) ∧ h.lastTime? = some ⟨20⟩ :=
    ⟨_, _, by cbv, by cbv, by cbv⟩
  obtain ⟨hpending, -, hsettled⟩ := handles_settle_once ⟨founding, rfl⟩ ⟨⟨2⟩, 2⟩
  obtain ⟨-, -, hsettled'⟩ := handles_settle_once ⟨founding.take 3, rfl⟩ ⟨⟨2⟩, 0⟩
  obtain ⟨hearly, hleaves⟩ := hpending h draft ⟨15⟩ hh hslot
  obtain ⟨htime, -⟩ := hpending h draft ⟨20⟩ hh hslot
  refine ⟨?_, ⟨draft, hleaves (.timeRegression ⟨2⟩ ⟨20⟩ ⟨15⟩) (by cbv)⟩, htime.2 ⟨by decide, ?_⟩,
    hsettled _ _ _ (.commit (by cbv)) (by simp), hsettled' _ _ _ (.append ?_ (by decide) ?_ ?_) ?_⟩
  · intro hanswered
    have hle := (hearly.1 hanswered).2 ⟨20⟩ hlast
    exact absurd hle (by decide)
  · intro last hl
    obtain rfl : (⟨20⟩ : Timestamp) = last := Option.some.inj (hlast.symm.trans hl)
    decide
  · intro h hh
    obtain rfl : ({ nid := ⟨2⟩, shape := .semantic ⟨1⟩ ⟨1⟩ } : History) = h :=
      Except.ok.inj (Eq.trans (by cbv) hh)
    decide
  · cbv
  · cbv
  · simp [founding]

end Store

end Bitemporal
