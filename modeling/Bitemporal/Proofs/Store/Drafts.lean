import Bitemporal.Proofs.Store.Handles
import Mathlib

/-!
# The way of a draft

A version can be committed as it is appended, or it can be appended as a draft, be given
other values any number of times, and be committed in the end. Both ways come to the same:
the handle, the number of the stamp and the whole store afterwards are those of the direct
way, so nothing tells of the values that the draft had before (`Store.commit_draft_eq_append`).

This is so because a store with a draft more differs from the one before in a single slot
(`Store.withDraft`), and updates of the draft only change what that slot holds
(`Store.run_updates`). The checks of a commit and of a direct append look at the order of
the commits, which no draft has a part in; so both are refused alike, and then just the draft
is left. What they write is the same slot and the same version behind the last one.
-/

namespace Bitemporal

/-- A stamp that is given a time has just that time. -/
theorem Stamp.isUncommitted_withTime {stamp : Stamp} {time : Timestamp}
    (ht : time ≠ .uncommitted) : (stamp.withTime time).isUncommitted = false :=
  decide_eq_false ht

namespace Store

open Bitemporal.Store.Action

variable {s t : Store} {nid : Nid} {h : History} {stamp : Stamp} {time : Timestamp}
  {payload : Payload} {values first : List FieldValue} {updates : List (List FieldValue)}
  {handle : Handle}

/-! ## A draft more -/

/-- The store after a draft is appended to the history of a component. -/
def withDraft (s : Store) (nid : Nid) (h : History) (draft : Draft) : Store :=
  { s with histories := s.histories.insert nid (h.appendDraft draft).2 }

theorem get?_withDraft (s : Store) (nid : Nid) (h : History) (draft : Draft) :
    (s.withDraft nid h draft).histories.get? nid =
      some { h with slots := h.slots ++ [.pending draft] } :=
  Table.get?_insert_self ..

theorem after_append_draft (hu : stamp.isUncommitted = true)
    (hanswer : ((Operation.append nid stamp values).perform s).1 = .ok (.version handle)) :
    ∃ h payload, s.histories.get? nid = some h ∧ s.payloadFor h values = .ok payload ∧
      handle = ⟨nid, h.nextSlot⟩ ∧
      (Operation.append nid stamp values).after s = s.withDraft nid h { stamp, payload } := by
  have ha := Operation.appended_of_answer hanswer
  generalize (Operation.append nid stamp values).after s = t at ha
  rcases ha with _ | ⟨hget, hp, -⟩ | ⟨-, -, hc, -, -⟩
  · exact ⟨_, _, hget, hp, rfl, rfl⟩
  · rw [hc] at hu
    cases hu

/-- The handle of the draft that was appended last leads to it. -/
theorem last_slot_withDraft {draft held : Draft} {k : History}
    (hroom : h.slots.length < UInt32.size)
    (hget : (s.withDraft nid h draft).histories.get? nid = some k)
    (hslot : k.slots[h.nextSlot.toNat]? = some (.pending held)) :
    k = { h with slots := h.slots ++ [.pending draft] } ∧ held = draft := by
  obtain rfl : k = _ := Option.some.inj (hget.symm.trans (get?_withDraft s nid h draft))
  rw [History.toNat_nextSlot hroom, List.getElem?_concat_length] at hslot
  exact ⟨rfl, (Slot.pending.inj (Option.some.inj hslot)).symm⟩

/-- An update of the draft that was appended last changes what its slot holds. -/
theorem after_update_withDraft {draft : Draft} {reply : Reply}
    (hroom : h.slots.length < UInt32.size)
    (hanswer : ((Operation.updateDraft ⟨nid, h.nextSlot⟩ values).perform
      (s.withDraft nid h draft)).1 = .ok reply) :
    ∃ payload, s.payloadFor h values = .ok payload ∧
      (Operation.updateDraft ⟨nid, h.nextSlot⟩ values).after (s.withDraft nid h draft) =
        s.withDraft nid h { draft with payload } := by
  have hu := Operation.updated_of_answer hanswer
  generalize (Operation.updateDraft ⟨nid, h.nextSlot⟩ values).after (s.withDraft nid h draft) = t
    at hu
  rcases hu with _ | @⟨k, payload, held, hget, hp, hslot⟩
  obtain ⟨rfl, rfl⟩ := last_slot_withDraft hroom hget hslot
  refine ⟨payload, hp, ?_⟩
  simp [withDraft, History.appendDraft, History.toNat_nextSlot hroom, Table.insert_insert,
    List.set_append_right]

/-- The values that a draft has after updates. -/
def lastValues (first : List FieldValue) (updates : List (List FieldValue)) : List FieldValue :=
  updates.getLast?.getD first

/-- Updates of the draft that was appended last leave it with the values of the last one. -/
theorem run_updates (hroom : h.slots.length < UInt32.size)
    (hp : s.payloadFor h first = .ok payload)
    (hanswers : ∀ answer ∈ (s.withDraft nid h { stamp, payload }).replies
      (updates.map (.updateDraft ⟨nid, h.nextSlot⟩)), ∃ reply, answer = .ok reply) :
    ∃ payload', s.payloadFor h (lastValues first updates) = .ok payload' ∧
      (s.withDraft nid h { stamp, payload }).run (updates.map (.updateDraft ⟨nid, h.nextSlot⟩)) =
        s.withDraft nid h { stamp, payload := payload' } := by
  induction updates generalizing first payload with
  | nil => exact ⟨payload, hp, rfl⟩
  | cons values updates ih =>
    rw [List.map_cons, replies] at hanswers
    obtain ⟨reply, hanswer⟩ := hanswers _ List.mem_cons_self
    obtain ⟨payload₁, hp₁, hafter⟩ := after_update_withDraft hroom hanswer
    rw [hafter] at hanswers
    obtain ⟨payload', hp', hrun⟩ := ih hp₁ fun answer hmem =>
      hanswers answer (List.mem_cons_of_mem _ hmem)
    refine ⟨payload', ?_, ?_⟩
    · rwa [lastValues, List.getLast?_cons]
    · rw [List.map_cons, run_cons, hafter, hrun]

/-! ## Both ways -/

/-- The store after a version is committed behind the others of a component. -/
def withCommitted (s : Store) (nid : Nid) (h : History) (version : Version)
    (stamps : StampTable) : Store :=
  { s with
    stamps
    histories := s.histories.insert nid { h with
      committed := h.committed ++ [version]
      slots := h.slots ++ [.committed version.seq] }
    index := s.index.fileVersion nid version }

theorem check_append (hget : s.histories.get? nid = some h)
    (hp : s.payloadFor h values = .ok payload) (hc : stamp.isUncommitted = false) :
    (Operation.append nid stamp values).check s = h.checkOrder stamp.time := by
  simp [Operation.check, history_eq_ok_iff.2 hget, hp, hc, bind, Except.bind]

theorem perform_append {seq : StampSeq} {stamps : StampTable}
    (hget : s.histories.get? nid = some h) (hp : s.payloadFor h values = .ok payload)
    (hc : stamp.isUncommitted = false) (ho : h.checkOrder stamp.time = .ok ())
    (hi : s.stamps.intern stamp = .ok (seq, stamps)) :
    (Operation.append nid stamp values).perform s =
      (.ok (.version ⟨nid, h.nextSlot⟩), s.withCommitted nid h { stamp, seq, payload } stamps) := by
  have hcheck : (Operation.append nid stamp values).check s = .ok () :=
    (check_append hget hp hc).trans ho
  obtain ⟨reply, t, hperform⟩ := Operation.exists_reply_of_check_eq_ok (.append ..) hcheck
  obtain ⟨answer, hanswer, ha⟩ := Operation.exists_appended s nid stamp values
  rw [Operation.after, hperform] at ha
  rw [hperform] at hanswer ⊢
  rcases ha with ⟨e⟩ | ⟨-, -, hu⟩ | @⟨k, payload', seq', stamps', hget', hp', -, -, hi'⟩
  · cases hanswer
  · rw [hc] at hu
    cases hu
  · obtain rfl : h = k := Option.some.inj (hget.symm.trans hget')
    obtain rfl : payload = payload' := Except.ok.inj (hp.symm.trans hp')
    obtain ⟨rfl, rfl⟩ : seq = seq' ∧ stamps = stamps' :=
      Prod.mk.inj (Except.ok.inj (hi.symm.trans hi'))
    rw [show Except.ok reply = _ from hanswer]
    rfl

theorem perform_append_draft (hget : s.histories.get? nid = some h)
    (hp : s.payloadFor h values = .ok payload) (hu : stamp.isUncommitted = true) :
    (Operation.append nid stamp values).perform s =
      (.ok (.version ⟨nid, h.nextSlot⟩), s.withDraft nid h { stamp, payload }) := by
  have hcheck : (Operation.append nid stamp values).check s = .ok () := by
    simp [Operation.check, history_eq_ok_iff.2 hget, hp, hu, bind, Except.bind, pure, Except.pure]
  obtain ⟨reply, t, hperform⟩ := Operation.exists_reply_of_check_eq_ok (.append ..) hcheck
  obtain ⟨answer, hanswer, ha⟩ := Operation.exists_appended s nid stamp values
  rw [Operation.after, hperform] at ha
  rw [hperform] at hanswer ⊢
  rcases ha with ⟨e⟩ | @⟨k, payload', hget', hp', -⟩ | ⟨-, -, hc⟩
  · cases hanswer
  · obtain rfl : h = k := Option.some.inj (hget.symm.trans hget')
    obtain rfl : payload = payload' := Except.ok.inj (hp.symm.trans hp')
    rw [show Except.ok reply = _ from hanswer]
    rfl
  · rw [hu] at hc
    cases hc

/-- A commit of the draft that was appended last checks the order of the commits alone, as
    a direct append does of which the values fit. -/
theorem check_commit_withDraft {draft : Draft} (hroom : h.slots.length < UInt32.size)
    (ht : time ≠ .uncommitted) :
    (Operation.commit ⟨nid, h.nextSlot⟩ time).check (s.withDraft nid h draft) =
      h.checkOrder time := by
  have hh := history_eq_ok_iff.2 (get?_withDraft s nid h draft)
  have hdraft : History.draft { h with slots := h.slots ++ [.pending draft] } h.nextSlot =
      .ok draft := by
    rw [History.draft, History.toNat_nextSlot hroom, List.getElem?_concat_length]
  have horder : History.checkOrder { h with slots := h.slots ++ [.pending draft] } time =
      h.checkOrder time := rfl
  cases ho : h.checkOrder time <;>
    simp [Operation.check, Timestamp.isUncommitted, ht, hh, History.checkCommit, hdraft, horder, ho,
      bind, Except.bind, pure, Except.pure]

/-- The slot of the draft takes the number of the stamp, and nothing is left of the draft. -/
theorem perform_commit_withDraft {draft : Draft} {seq : StampSeq} {stamps : StampTable}
    (hroom : h.slots.length < UInt32.size) (ht : time ≠ .uncommitted)
    (ho : h.checkOrder time = .ok ())
    (hi : s.stamps.intern (draft.stamp.withTime time) = .ok (seq, stamps)) :
    (Operation.commit ⟨nid, h.nextSlot⟩ time).perform (s.withDraft nid h draft) =
      (.ok (.stamp seq), s.withCommitted nid h
        { stamp := draft.stamp.withTime time, seq, payload := draft.payload } stamps) := by
  have hcheck : (Operation.commit ⟨nid, h.nextSlot⟩ time).check (s.withDraft nid h draft) =
      .ok () := (check_commit_withDraft hroom ht).trans ho
  obtain ⟨reply, t, hperform⟩ := Operation.exists_reply_of_check_eq_ok (.commit ..) hcheck
  obtain ⟨answer, hanswer, hc⟩ :=
    Operation.exists_committed (s.withDraft nid h draft) ⟨nid, h.nextSlot⟩ time
  rw [Operation.after, hperform] at hc
  rw [hperform] at hanswer ⊢
  rcases hc with ⟨e⟩ | @⟨k, held, seq', stamps', -, hget, hslot, -, hi'⟩
  · cases hanswer
  · obtain ⟨rfl, rfl⟩ := last_slot_withDraft hroom hget hslot
    obtain ⟨rfl, rfl⟩ : seq = seq' ∧ stamps = stamps' :=
      Prod.mk.inj (Except.ok.inj (hi.symm.trans hi'))
    rw [show Except.ok reply = _ from hanswer]
    simp [withDraft, History.appendDraft, withCommitted, History.toNat_nextSlot hroom,
      Table.insert_insert, List.set_append_right, Except.map]

/-- A refusal for the order of the commits is that the time is before the last one. -/
theorem checkOrder_eq_error {e : Error} (ho : h.checkOrder time = .error e) :
    ∃ last, h.lastTime? = some last ∧ time < last ∧ e = .timeRegression h.nid last time := by
  rw [History.checkOrder] at ho
  split at ho
  · next last hlast =>
    split at ho
    · next hlt =>
      cases ho
      exact ⟨last, hlast, hlt, rfl⟩
    · cases ho
  · cases ho

/-- The way of a draft and the direct way agree. After a draft is appended and its updates
    are accepted, the store has that draft more, with the values of the last update. If a
    direct append of these values at a time is answered, it is so with the handle of the
    draft, and the commit of the draft at that time is answered with the number of the version
    and leaves the very same store. If the direct append is refused, it is because the time
    is before the last commit, and the commit is refused for the same cause and leaves the
    draft. -/
theorem commit_draft_eq_append
    (hroom : ∀ h, s.history nid = .ok h → h.slots.length < UInt32.size)
    (hu : stamp.isUncommitted = true) (ht : time ≠ .uncommitted)
    (hfirst : ((Operation.append nid stamp first).perform s).1 = .ok (.version handle))
    (hupdates : ∀ answer ∈ ((Operation.append nid stamp first).after s).replies
      (updates.map (.updateDraft handle)), ∃ reply, answer = .ok reply) :
    let drafted := s.run (.append nid stamp first :: updates.map (.updateDraft handle))
    let direct := Operation.append nid (stamp.withTime time) (lastValues first updates)
    ∃ h payload, s.history nid = .ok h ∧ payload.values = .ok (lastValues first updates) ∧
      drafted = s.withDraft nid h { stamp, payload } ∧
      (∀ reply t, direct.perform s = (.ok reply, t) →
        reply = .version handle ∧ ∃ seq,
          (Operation.commit handle time).perform drafted = (.ok (.stamp seq), t) ∧
          (t.committedOf nid).getLast?.map Version.seq = some seq) ∧
      ∀ e t, direct.perform s = (.error e, t) →
        (∃ last, h.lastTime? = some last ∧ time < last ∧
          e = .timeRegression h.nid last time) ∧
        (Operation.commit handle time).perform drafted = (.error e, drafted) := by
  obtain ⟨h, payload₀, hget, hp₀, rfl, hafter⟩ := after_append_draft hu hfirst
  rw [hafter] at hupdates
  have hroom := hroom h (history_eq_ok_iff.2 hget)
  obtain ⟨payload, hp, hrun⟩ := run_updates hroom hp₀ hupdates
  have hc : (stamp.withTime time).isUncommitted = false := Stamp.isUncommitted_withTime ht
  intro drafted direct
  have hdrafted : drafted = s.withDraft nid h { stamp, payload } := by
    rw [← hrun, ← hafter]
    rfl
  rw [hdrafted]
  -- both ways check the order of the commits, and nothing else
  have hdirect : direct.check s = h.checkOrder time := check_append hget hp hc
  have hcommit : (Operation.commit ⟨nid, h.nextSlot⟩ time).check
      (s.withDraft nid h { stamp, payload }) = h.checkOrder time := check_commit_withDraft hroom ht
  refine ⟨h, payload, history_eq_ok_iff.2 hget, values_of_payloadFor hp, rfl, ?_, ?_⟩
  · intro reply t hperform
    cases ho : h.checkOrder time with
    | error e =>
      rw [Operation.perform_of_check_eq_error (hdirect.trans ho)] at hperform
      cases hperform
    | ok u =>
      obtain ⟨seq, stamps, hi⟩ := s.stamps.exists_intern hc
      rw [perform_append hget hp hc ho hi] at hperform
      cases hperform
      refine ⟨rfl, seq, perform_commit_withDraft hroom ht ho hi, ?_⟩
      simp [committedOf, withCommitted]
  · intro e t hperform
    cases ho : h.checkOrder time with
    | error e' =>
      rw [Operation.perform_of_check_eq_error (hdirect.trans ho)] at hperform
      cases hperform
      exact ⟨checkOrder_eq_error ho, Operation.perform_of_check_eq_error (hcommit.trans ho)⟩
    | ok u =>
      obtain ⟨seq, stamps, hi⟩ := s.stamps.exists_intern hc
      rw [perform_append hget hp hc ho hi] at hperform
      cases hperform

/-- A draft with two updates is committed after the last commit of the founding run, and one
    with none before it. -/
theorem commit_draft_eq_append_of_founding :
    (∃ t, (Operation.append ⟨2⟩ (foundingStamp ⟨30⟩) [.nid ⟨4⟩]).perform (empty.run founding) =
        (.ok (.version ⟨⟨2⟩, 3⟩), t) ∧
      (Operation.commit ⟨⟨2⟩, 3⟩ ⟨30⟩).perform ((empty.run founding).run
        [.append ⟨2⟩ (foundingStamp .uncommitted) [.nid ⟨5⟩],
          .updateDraft ⟨⟨2⟩, 3⟩ [.nid ⟨6⟩], .updateDraft ⟨⟨2⟩, 3⟩ [.nid ⟨4⟩]]) =
        (.ok (.stamp ⟨3⟩), t)) ∧
    (Operation.commit ⟨⟨2⟩, 3⟩ ⟨15⟩).perform ((empty.run founding).run
        [.append ⟨2⟩ (foundingStamp .uncommitted) [.nid ⟨5⟩]]) =
      (.error (.timeRegression ⟨2⟩ ⟨20⟩ ⟨15⟩), (empty.run founding).run
        [.append ⟨2⟩ (foundingStamp .uncommitted) [.nid ⟨5⟩]]) := by
  obtain ⟨h, hh, hlength⟩ : ∃ h, (empty.run founding).history ⟨2⟩ = .ok h ∧ h.slots.length = 3 :=
    ⟨_, by cbv, by cbv⟩
  have hroom : ∀ k, (empty.run founding).history ⟨2⟩ = .ok k → k.slots.length < UInt32.size := by
    intro k hk
    obtain rfl : h = k := Except.ok.inj (hh.symm.trans hk)
    rw [hlength]
    decide
  have hfirst : ((Operation.append ⟨2⟩ (foundingStamp .uncommitted) [.nid ⟨5⟩]).perform
      (empty.run founding)).1 = .ok (.version ⟨⟨2⟩, 3⟩) := by cbv
  have hreplies : ((Operation.append ⟨2⟩ (foundingStamp .uncommitted) [.nid ⟨5⟩]).after
      (empty.run founding)).replies (List.map (.updateDraft ⟨⟨2⟩, 3⟩) [[.nid ⟨6⟩], [.nid ⟨4⟩]]) =
        [.ok .done, .ok .done] := by cbv
  have hupdates : ∀ answer ∈ ((Operation.append ⟨2⟩ (foundingStamp .uncommitted)
      [.nid ⟨5⟩]).after (empty.run founding)).replies
        (List.map (.updateDraft ⟨⟨2⟩, 3⟩) [[.nid ⟨6⟩], [.nid ⟨4⟩]]),
      ∃ reply, answer = .ok reply := by
    rw [hreplies]
    simp
  obtain ⟨t, hdirect, hseq⟩ : ∃ t,
      (Operation.append ⟨2⟩ (foundingStamp ⟨30⟩) [.nid ⟨4⟩]).perform (empty.run founding) =
        (.ok (.version ⟨⟨2⟩, 3⟩), t) ∧
      (t.committedOf ⟨2⟩).getLast?.map Version.seq = some ⟨3⟩ := ⟨_, by cbv, by cbv⟩
  have hregression : (Operation.append ⟨2⟩ (foundingStamp ⟨15⟩) [.nid ⟨5⟩]).perform
      (empty.run founding) = (.error (.timeRegression ⟨2⟩ ⟨20⟩ ⟨15⟩), empty.run founding) := by cbv
  have hnone : ∀ answer ∈ ((Operation.append ⟨2⟩ (foundingStamp .uncommitted)
      [.nid ⟨5⟩]).after (empty.run founding)).replies (List.map (.updateDraft ⟨⟨2⟩, 3⟩) []),
      ∃ reply, answer = .ok reply := fun _ hmem => absurd hmem List.not_mem_nil
  have hlateTime : (⟨30⟩ : Timestamp) ≠ .uncommitted := by decide
  have hearlyTime : (⟨15⟩ : Timestamp) ≠ .uncommitted := by decide
  obtain ⟨-, -, -, -, -, hlate, -⟩ := commit_draft_eq_append hroom rfl hlateTime hfirst hupdates
  obtain ⟨k, -, -, -, -, -, hearly⟩ := commit_draft_eq_append hroom rfl hearlyTime hfirst hnone
  obtain ⟨-, seq, hcommit, hseq'⟩ := hlate _ t hdirect
  obtain rfl : seq = ⟨3⟩ := Option.some.inj (hseq'.symm.trans hseq)
  exact ⟨⟨t, hdirect, hcommit⟩, (hearly _ _ hregression).2⟩

end Store

end Bitemporal
