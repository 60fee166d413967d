import Bitemporal.Proofs.Store.Locality

/-!
# Other numbers

The numbers of stamps can be replaced by others, in a history and in what is answered
(`History.rename`, `renamed`). Nothing that is done to a history depends on which numbers
stand in it: the order of commits is that of their times, and of a slot it matters only
whether it holds a number. So operations that find the history with other numbers do the
same, and answer the same with other numbers (`Store.answersOn_rename`, `Store.runOn_rename`).
-/

namespace Bitemporal

/-! ## Renaming -/

/-- The slot with another number. -/
def Slot.rename (f : StampSeq → StampSeq) : Slot → Slot
  | .pending draft => .pending draft
  | .committed seq => .committed (f seq)

/-- The version with another number. -/
def Version.rename (f : StampSeq → StampSeq) (version : Version) : Version :=
  { version with seq := f version.seq }

/-- The history with other numbers. -/
def History.rename (f : StampSeq → StampSeq) (h : History) : History :=
  { h with committed := h.committed.map (Version.rename f), slots := h.slots.map (Slot.rename f) }

/-- The error with another number, if it tells one of a version. -/
def Error.rename (f : StampSeq → StampSeq) : Error → Error
  | .alreadyCommitted nid seq => .alreadyCommitted nid (f seq)
  | e => e

/-- The reply with another number. -/
def Store.Reply.rename (f : StampSeq → StampSeq) : Store.Reply → Store.Reply
  | .stamp seq => .stamp (f seq)
  | reply => reply

/-- What is answered with other numbers. -/
def renamed {α β : Type} (f : StampSeq → StampSeq) (g : α → β) : Except Error α → Except Error β
  | .ok a => .ok (g a)
  | .error e => .error (e.rename f)

/-- What is done in sequence can be renamed step by step. -/
theorem renamed_bind {α β γ δ : Type} {f : StampSeq → StampSeq} {g : α → β} {g' : γ → δ}
    {x : Except Error α} {k : α → Except Error γ} {k' : β → Except Error δ}
    (hk : ∀ a, k' (g a) = renamed f g' (k a)) : (renamed f g x >>= k') = renamed f g' (x >>= k) := by
  cases x with
  | error e => rfl
  | ok a => exact hk a

/-! ## Values that fit -/

/-- Why values cannot be written has to do with no number of a stamp. -/
theorem Field.rename_of_encodeFields {f : StampSeq → StampSeq} {before : List (Nat × List UInt8)}
    {position start : Nat} {types : List FieldType} {values : List FieldValue} {e : Error}
    (he : encodeFields before position start types values = .error e) : e.rename f = e := by
  have hcounted {octets : List UInt8} {e : Error} (he : encodeCounted octets = .error e) :
      e.rename f = e := by
    rw [encodeCounted] at he
    split at he
    · cases he
    · cases he
      rfl
  fun_induction encodeFields before position start types values with
  | case1 before position start declared types value values htype =>
    cases he
    rfl
  | case2 before position start declared types value values htype e' hvalue =>
    obtain rfl := Except.error.inj he
    cases value with
    | string text => exact hcounted hvalue
    | bytes octets => exact hcounted hvalue
    | _ => cases hvalue
  | case3 before position start declared types value values htype octets hvalue ih => exact ih he
  | case4 => cases he

theorem Field.rename_of_ofValues {f : StampSeq → StampSeq} {schema : Schema}
    {values : List FieldValue} {e : Error} (he : FieldTuple.ofValues schema values = .error e) :
    e.rename f = e := by
  rw [FieldTuple.ofValues, encodeWithStarts] at he
  split at he
  · cases he
    rfl
  · split at he
    · cases he
      rfl
    · split at he
      · next e' hfields =>
        cases he
        exact rename_of_encodeFields hfields
      · cases he

namespace Store

variable {s : Store} {f : StampSeq → StampSeq} {number : Stamp → StampSeq} {h : History}

theorem payloadFor_rename (s : Store) (f : StampSeq → StampSeq) (h : History)
    (values : List FieldValue) :
    s.payloadFor (h.rename f) values = renamed f id (s.payloadFor h values) := by
  rw [payloadFor, payloadFor, show (h.rename f).shape = h.shape from rfl]
  cases h.shape with
  | concept =>
    cases values <;> rfl
  | semantic assemblage referenced =>
    simp only [Store.schema]
    cases s.schemas.get? assemblage with
    | none => rfl
    | some schema =>
      cases hv : FieldTuple.ofValues schema values with
      | ok tuple => simp [hv, renamed, bind, Except.bind, pure, Except.pure]
      | error e =>
        have he := Field.rename_of_ofValues (f := f) hv
        simp [hv, renamed, bind, Except.bind, he]

end Store

/-! ## Histories -/

namespace History

variable {f : StampSeq → StampSeq} {h : History}

theorem checkOrder_rename (f : StampSeq → StampSeq) (h : History) (time : Timestamp) :
    (h.rename f).checkOrder time = renamed f id (h.checkOrder time) := by
  have hlast : (h.rename f).lastTime? = h.lastTime? := by
    rw [lastTime?, lastTime?, rename, List.getLast?_map, Option.map_map]
    rfl
  rw [checkOrder, checkOrder, hlast]
  cases h.lastTime? with
  | none => rfl
  | some last =>
    show (if time < last then _ else _) = renamed f id (if time < last then _ else _)
    split <;> rfl

theorem nextSlot_rename (f : StampSeq → StampSeq) (h : History) :
    (h.rename f).nextSlot = h.nextSlot := by
  rw [nextSlot, nextSlot, rename, List.length_map]

theorem draft_rename (f : StampSeq → StampSeq) (h : History) (slot : UInt32) :
    (h.rename f).draft slot = renamed f id (h.draft slot) := by
  rw [draft, draft, show (h.rename f).slots[slot.toNat]? = (h.slots[slot.toNat]?).map (Slot.rename f)
    from List.getElem?_map]
  rcases h.slots[slot.toNat]? with _ | draft | seq <;> rfl

theorem checkCommit_rename (f : StampSeq → StampSeq) (h : History) (slot : UInt32)
    (time : Timestamp) :
    (h.rename f).checkCommit slot time = renamed f id (h.checkCommit slot time) := by
  rw [checkCommit, checkCommit, draft_rename, checkOrder_rename]
  exact renamed_bind fun draft => renamed_bind fun _ => rfl

theorem appendDraft_rename (f : StampSeq → StampSeq) (h : History) (draft : Draft) :
    (h.rename f).appendDraft draft = Prod.map id (rename f) (h.appendDraft draft) := by
  rw [appendDraft, appendDraft, nextSlot_rename]
  simp [rename, Slot.rename]

theorem appendCommitted_rename (f : StampSeq → StampSeq) (h : History) (version : Version) :
    (h.rename f).appendCommitted (version.rename f) =
      renamed f (Prod.map id (rename f)) (h.appendCommitted version) := by
  rw [appendCommitted, appendCommitted, nextSlot_rename,
    show (version.rename f).stamp = version.stamp from rfl, checkOrder_rename]
  refine renamed_bind fun _ => ?_
  simp [rename, renamed, pure, Except.pure, Slot.rename, Version.rename]

theorem replacePayload_rename (f : StampSeq → StampSeq) (h : History) (slot : UInt32)
    (payload : Payload) :
    (h.rename f).replacePayload slot payload =
      renamed f (rename f) (h.replacePayload slot payload) := by
  rw [replacePayload, replacePayload, draft_rename]
  refine renamed_bind fun draft => ?_
  simp [rename, renamed, pure, Except.pure, Slot.rename, List.map_set]

theorem commitDraft_rename (f : StampSeq → StampSeq) (h : History) (slot : UInt32) (stamp : Stamp)
    (seq : StampSeq) :
    (h.rename f).commitDraft slot stamp (f seq) =
      renamed f (Prod.map (Version.rename f) (rename f)) (h.commitDraft slot stamp seq) := by
  rw [commitDraft, commitDraft, checkCommit_rename]
  refine renamed_bind fun draft => ?_
  simp [rename, renamed, pure, Except.pure, Slot.rename, Version.rename, List.map_set]

end History

/-! ## Operations -/

namespace Store

variable {f : StampSeq → StampSeq} {number : Stamp → StampSeq} {found : Except Error History}

theorem appendOn_rename (s : Store) (nid : Nid) (stamp : Stamp) (values : List FieldValue) :
    s.appendOn (f ∘ number) (renamed f (History.rename f) found) nid stamp values =
      renamed f (Prod.map id (History.rename f)) (s.appendOn number found nid stamp values) := by
  refine renamed_bind fun h => ?_
  rw [payloadFor_rename]
  refine renamed_bind fun payload => ?_
  cases stamp.isUncommitted with
  | true =>
    simp only [if_true]
    rw [id, History.appendDraft_rename]
    rfl
  | false =>
    simp only [Bool.false_eq_true, if_false]
    rw [History.checkOrder_rename]
    refine renamed_bind fun _ => ?_
    exact (congrArg (· >>= _) (History.appendCommitted_rename f h ⟨stamp, number stamp, payload⟩)).trans
      (renamed_bind fun _ => rfl)

theorem updateDraftOn_rename (s : Store) (slot : UInt32) (values : List FieldValue) :
    s.updateDraftOn (renamed f (History.rename f) found) slot values =
      renamed f (Prod.map id (History.rename f)) (s.updateDraftOn found slot values) := by
  refine renamed_bind fun h => ?_
  rw [payloadFor_rename]
  refine renamed_bind fun payload => ?_
  rw [id, History.replacePayload_rename]
  exact renamed_bind fun _ => rfl

theorem commitOn_rename (slot : UInt32) (time : Timestamp) :
    commitOn (f ∘ number) (renamed f (History.rename f) found) slot time =
      renamed f (Prod.map f (History.rename f)) (commitOn number found slot time) := by
  rw [commitOn, commitOn]
  cases time.isUncommitted with
  | true => rfl
  | false =>
    refine renamed_bind fun h => ?_
    rw [History.checkCommit_rename]
    refine renamed_bind fun draft => ?_
    refine (congrArg (· >>= _) (History.commitDraft_rename f h slot _ _)).trans ?_
    exact renamed_bind fun _ => rfl

theorem Operation.onHistory_rename (s : Store) (op : Operation) :
    op.onHistory s (f ∘ number) (renamed f (History.rename f) found) =
      renamed f (Prod.map (Reply.rename f) (History.rename f)) (op.onHistory s number found) := by
  cases op with
  | append nid stamp values =>
    rw [onHistory, onHistory, appendOn_rename]
    rcases s.appendOn number found nid stamp values with e | ⟨handle, h⟩ <;> rfl
  | updateDraft handle values =>
    rw [onHistory, onHistory, updateDraftOn_rename]
    rcases s.updateDraftOn found handle.slot values with e | ⟨u, h⟩ <;> rfl
  | commit handle time =>
    rw [onHistory, onHistory, commitOn_rename]
    rcases commitOn number found handle.slot time with e | ⟨seq, h⟩ <;> rfl
  | _ => cases found <;> rfl

theorem Operation.answerOn_rename (s : Store) (op : Operation) :
    op.answerOn s (f ∘ number) (renamed f (History.rename f) found) =
      renamed f (Reply.rename f) (op.answerOn s number found) := by
  rw [answerOn, answerOn, onHistory_rename]
  rcases op.onHistory s number found with e | ⟨reply, h⟩ <;> rfl

theorem Operation.historyAfter_rename (s : Store) (op : Operation) :
    op.historyAfter s (f ∘ number) (renamed f (History.rename f) found) =
      renamed f (History.rename f) (op.historyAfter s number found) := by
  rw [historyAfter, historyAfter, onHistory_rename]
  rcases op.onHistory s number found with e | ⟨reply, h⟩ <;> rfl

/-- Operations that find a history with other numbers answer the same with other numbers. -/
theorem answersOn_rename (s : Store) (found : Except Error History) (ops : List Operation) :
    s.answersOn (f ∘ number) (renamed f (History.rename f) found) ops =
      (s.answersOn number found ops).map (renamed f (Reply.rename f)) := by
  induction ops generalizing found with
  | nil => rfl
  | cons op ops ih =>
    rw [answersOn, answersOn, Operation.answerOn_rename, Operation.historyAfter_rename, ih,
      List.map_cons]

/-- They leave the same with other numbers. -/
theorem runOn_rename (s : Store) (found : Except Error History) (ops : List Operation) :
    s.runOn (f ∘ number) (renamed f (History.rename f) found) ops =
      renamed f (History.rename f) (s.runOn number found ops) := by
  induction ops generalizing found with
  | nil => rfl
  | cons op ops ih =>
    rw [runOn, List.foldl_cons, Operation.historyAfter_rename]
    exact ih _

end Store

end Bitemporal
