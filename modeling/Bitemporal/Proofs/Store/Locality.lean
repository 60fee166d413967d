import Bitemporal.Proofs.StampTable.Interning
import Bitemporal.Proofs.Store.Events

/-!
# Operations on versions are local

An operation on the versions of a component reads the history of that component, the
schemas and the interned stamps, and nothing else of the store. Of the stamps it takes one
number at most. If the numbers are given, what it answers and what becomes of the history
can be said of the history alone (`Operation.onHistory`).

The numbers can be given in advance for a whole run: since a stamp keeps the number under
which it is interned, they are those of the table at the end (`StampTable.Numbers`). So along a
run of such operations, addressed to whatever components, the history of each component and
the answers to the operations on it are what the operations on it alone make of its history
(`Store.run_eq_runOn`).
-/

namespace Bitemporal

namespace Store

open Bitemporal.Store.Action

variable {s t : Store} {n m : Nid} {number : Stamp → StampSeq} {op : Operation}
  {ops : List Operation} {found : Except Error History}

/-! ## What is left elsewhere -/

/-- What an operation on the versions of a component can leave. -/
inductive Touched (s : Store) (n : Nid) : Store → Prop
  | kept : Touched s n s
  | drafted {h : History} {slots : List Slot} : s.histories.get? n = some h →
      Touched s n { s with histories := s.histories.insert n { h with slots } }
  | committed {h : History} {version : Version} {slots : List Slot} {stamps : StampTable} :
      s.histories.get? n = some h →
      s.stamps.intern version.stamp = .ok (version.seq, stamps) →
      Touched s n
        { s with
          stamps
          histories := s.histories.insert n
            { h with committed := h.committed ++ [version], slots }
          index := s.index.fileVersion n version }

theorem Operation.touched (htarget : op.target? = some n) (s : Store) :
    s.Touched n (op.after s) := by
  cases op with
  | append nid stamp values =>
    obtain rfl := Option.some.inj htarget
    obtain ⟨answer, -, ha⟩ := exists_appended s nid stamp values
    generalize (append nid stamp values).after s = t at ha ⊢
    rcases ha with _ | ⟨hget, -, -⟩ | ⟨hget, -, -, -, hi⟩
    · exact .kept
    · exact .drafted hget
    · exact .committed hget hi
  | updateDraft handle values =>
    obtain rfl := Option.some.inj htarget
    obtain ⟨answer, -, hu⟩ := exists_updated s handle values
    generalize (updateDraft handle values).after s = t at hu ⊢
    rcases hu with _ | ⟨hget, -, -⟩
    · exact .kept
    · exact .drafted hget
  | commit handle time =>
    obtain rfl := Option.some.inj htarget
    obtain ⟨answer, -, hc⟩ := exists_committed s handle time
    generalize (commit handle time).after s = t at hc ⊢
    rcases hc with _ | ⟨-, hget, -, -, hi⟩
    · exact .kept
    · exact .committed hget hi
  | _ => cases htarget

theorem Touched.history_of_ne (ht : s.Touched n t) (hne : m ≠ n) : t.history m = s.history m := by
  rw [history, history]
  rcases ht with _ | hget | ⟨hget, hi⟩
  · rfl
  · rw [Table.get?_insert_of_ne _ _ (Ne.symm hne)]
  · rw [Table.get?_insert_of_ne _ _ (Ne.symm hne)]

theorem Touched.internsTo (ht : s.Touched n t) : s.stamps.InternsTo t.stamps := by
  rcases ht with _ | hget | ⟨hget, hi⟩
  · exact .refl
  · exact .refl
  · exact .intern .refl hi

theorem Touched.components (ht : s.Touched n t) : t.components = s.components := by
  have hkeys {h h' : History} (hget : s.histories.get? n = some h) :
      (s.histories.insert n h').keys = s.histories.keys := by
    rw [Table.keys_insert, if_pos]
    exact Table.contains_iff_mem_keys.1 (by rw [Table.contains, hget, Option.isSome_some])
  rcases ht with _ | hget | ⟨hget, hi⟩
  · rfl
  · exact hkeys hget
  · exact hkeys hget

/-- Every stamp that is interned was so in a table from before, or some version has been
    committed under it. -/
def Carries (s : Store) (before : StampTable) : Prop :=
  ∀ stamp ∈ s.stamps.stamps, stamp ∈ before.stamps ∨
    ∃ n h, s.histories.get? n = some h ∧ ∃ version ∈ h.committed, version.stamp = stamp

theorem carries_self (s : Store) : s.Carries s.stamps :=
  fun _ hs => .inl hs

/-- Versions that are added carry the stamps that come in, and those that were there still
    carry theirs. -/
theorem Carries.insert {before : StampTable} {h h' : History} {later : List Version}
    (hs : s.Carries before) (hget : s.histories.get? n = some h)
    (ht : t.histories = s.histories.insert n h') (hcommitted : h'.committed = h.committed ++ later)
    (hstamps : ∀ stamp ∈ t.stamps.stamps, stamp ∈ s.stamps.stamps ∨
      ∃ version ∈ later, version.stamp = stamp) : t.Carries before := by
  intro stamp hstamp
  rw [ht]
  obtain hold | ⟨version, hv, rfl⟩ := hstamps stamp hstamp
  · obtain hbefore | ⟨m, k, hk, version, hv, rfl⟩ := hs stamp hold
    · exact .inl hbefore
    · refine .inr ⟨m, ?_⟩
      by_cases hm : n = m
      · subst hm
        obtain rfl : h = k := Option.some.inj (hget.symm.trans hk)
        refine ⟨h', Table.get?_insert_self .., version, ?_, rfl⟩
        rw [hcommitted]
        exact List.mem_append_left _ hv
      · exact ⟨k, by rw [Table.get?_insert_of_ne _ _ hm, hk], version, hv, rfl⟩
  · refine .inr ⟨n, h', Table.get?_insert_self .., version, ?_, rfl⟩
    rw [hcommitted]
    exact List.mem_append_right _ hv

theorem Touched.carries {before : StampTable} (ht : s.Touched n t) (hs : s.Carries before) :
    t.Carries before := by
  rcases ht with _ | hget | @⟨h, version, slots, stamps, hget, hi⟩
  · exact hs
  · exact hs.insert hget rfl (List.append_nil _).symm fun stamp hstamp => .inl hstamp
  · refine hs.insert hget rfl rfl fun stamp hstamp => ?_
    obtain ⟨-, ⟨-, rfl⟩ | ⟨-, -, rfl⟩⟩ := StampTable.intern_eq_ok hi
    · exact .inl hstamp
    · rcases List.mem_append.1 hstamp with hold | hnew
      · exact .inl hold
      · exact .inr ⟨version, List.mem_singleton_self _, (List.mem_singleton.1 hnew).symm⟩

/-- What no operation on versions touches. -/
structure SameTables (s t : Store) : Prop where
  identities : t.identities = s.identities
  lineage : t.lineage = s.lineage
  schemas : t.schemas = s.schemas
  components : t.components = s.components

theorem Touched.sameTables (ht : s.Touched n t) : s.SameTables t := by
  have hcomponents := ht.components
  rcases ht with _ | hget | ⟨hget, hi⟩ <;> exact ⟨rfl, rfl, rfl, hcomponents⟩

theorem SameTables.symm (h : s.SameTables t) : t.SameTables s :=
  ⟨h.identities.symm, h.lineage.symm, h.schemas.symm, h.components.symm⟩

theorem SameTables.trans {u : Store} (h : s.SameTables t) (h' : t.SameTables u) :
    s.SameTables u :=
  ⟨h'.identities.trans h.identities, h'.lineage.trans h.lineage, h'.schemas.trans h.schemas,
    h'.components.trans h.components⟩

/-! ## What becomes of the history

If the numbers of stamps are given, the history that is found is all that is needed. -/

/-- The handle of an appended version, and the history with it. -/
def appendOn (s : Store) (number : Stamp → StampSeq) (found : Except Error History) (nid : Nid)
    (stamp : Stamp) (values : List FieldValue) : Except Error (Handle × History) := do
  let h ← found
  let payload ← s.payloadFor h values
  if stamp.isUncommitted then
    let (slot, h) := h.appendDraft { stamp, payload }
    return ({ nid, slot }, h)
  else
    h.checkOrder stamp.time
    let (slot, h) ← h.appendCommitted { stamp, seq := number stamp, payload }
    return ({ nid, slot }, h)

/-- The history in which a draft has other values. -/
def updateDraftOn (s : Store) (found : Except Error History) (slot : UInt32)
    (values : List FieldValue) : Except Error (Unit × History) := do
  let h ← found
  let payload ← s.payloadFor h values
  let h ← h.replacePayload slot payload
  return ((), h)

/-- The number of a draft that is committed, and the history in which it is. -/
def commitOn (number : Stamp → StampSeq) (found : Except Error History) (slot : UInt32)
    (time : Timestamp) : Except Error (StampSeq × History) := do
  if time.isUncommitted then throw .uncommittedStamp
  let h ← found
  let draft ← h.checkCommit slot time
  let stamp := draft.stamp.withTime time
  let (_, h) ← h.commitDraft slot stamp (number stamp)
  return (number stamp, h)

/-- What an operation on versions answers, and the history that it leaves. An operation of
    another kind leaves what it finds. -/
def Operation.onHistory (s : Store) (number : Stamp → StampSeq) (found : Except Error History) :
    Operation → Except Error (Reply × History)
  | append nid stamp values =>
    (s.appendOn number found nid stamp values).map (Prod.map .version id)
  | updateDraft handle values =>
    (s.updateDraftOn found handle.slot values).map (Prod.map (fun _ => .done) id)
  | commit handle time => (commitOn number found handle.slot time).map (Prod.map .stamp id)
  | _ => found.map fun h => (.done, h)

/-- An action that leaves stamps with the given numbers does to the history of a component
    what a computation says: it is refused for the same cause and nothing is done, or it
    answers the same and leaves the history that is computed. -/
def Computes {α : Type} (s : Store) (n : Nid) (number : Stamp → StampSeq)
    (result : Except Error (α × History)) (a : Action α) : Prop :=
  (a.perform s).2.stamps.Numbers number →
    match result with
    | .error e => a.perform s = (.error e, s)
    | .ok (x, h) => (a.perform s).1 = .ok x ∧ (a.perform s).2.history n = .ok h

theorem computes_get {α : Type} {result : Except Error (α × History)} {f : Store → Action α}
    (hf : s.Computes n number result (f s)) : s.Computes n number result (get >>= f) := by
  simpa only [Computes, perform_bind, perform_get] using hf

/-- What is looked up before anything is changed is looked up by the computation too. -/
theorem computes_bind {α γ : Type} {x : Except Error γ} {result : γ → Except Error (α × History)}
    {f : γ → Action α} (hf : ∀ c, x = .ok c → s.Computes n number (result c) (f c)) :
    s.Computes n number (x >>= result) (liftM x >>= f) := by
  cases x with
  | error e => simp [Computes]
  | ok c =>
    show s.Computes n number (result c) (liftM (Except.ok c) >>= f)
    simpa only [Computes, perform_bind, perform_lift] using hf c rfl

theorem computes_map {α β : Type} {result : Except Error (α × History)} {a : Action α} (f : α → β)
    (ha : s.Computes n number result a) :
    s.Computes n number (result.map (Prod.map f id)) (f <$> a) := by
  intro hn
  rw [perform_map] at hn ⊢
  have hcomputed := ha hn
  cases result with
  | error e =>
    rw [show a.perform s = (.error e, s) from hcomputed]
    rfl
  | ok found =>
    obtain ⟨hanswer, hhistory⟩ := hcomputed
    exact ⟨by rw [hanswer]; rfl, hhistory⟩

theorem computes_append (s : Store) (n : Nid) (stamp : Stamp) (values : List FieldValue) :
    s.Computes n number (s.appendOn number (s.history n) n stamp values)
      (append n stamp values) := by
  refine computes_get (computes_bind fun h hh => ?_)
  refine computes_get (computes_bind fun payload hp => ?_)
  cases hu : stamp.isUncommitted with
  | true =>
    intro hn
    exact ⟨rfl, by simp [putHistory, history, History.appendDraft]⟩
  | false =>
    refine computes_bind fun _ ho hn => ?_
    obtain ⟨seq, stamps, hi⟩ := s.stamps.exists_intern hu
    have ha : h.appendCommitted ⟨stamp, seq, payload⟩ = _ := appendCommitted_eq ho
    have hnumber : number stamp = seq := by
      refine hn stamp seq ?_
      simpa [perform_intern hi, ha, putHistory, fileCommitted] using StampTable.seq?_of_intern hi
    simp [perform_intern hi, ha, putHistory, fileCommitted, history, hnumber, Except.map]

theorem computes_updateDraft (s : Store) (handle : Handle) (values : List FieldValue) :
    s.Computes handle.nid number (s.updateDraftOn (s.history handle.nid) handle.slot values)
      (updateDraft handle values) := by
  refine computes_get (computes_bind fun h hh => ?_)
  refine computes_get (computes_bind fun payload hp => ?_)
  refine computes_bind fun h' hr hn => ?_
  exact ⟨rfl, by simp [putHistory, history]⟩

theorem computes_commit (s : Store) (handle : Handle) (time : Timestamp) :
    s.Computes handle.nid number (commitOn number (s.history handle.nid) handle.slot time)
      (commit handle time) := by
  rw [commit, commitOn]
  cases ht : time.isUncommitted with
  | true => exact fun _ => rfl
  | false =>
    refine computes_get (computes_bind fun h hh => ?_)
    refine computes_bind fun draft hc hn => ?_
    have hu : (draft.stamp.withTime time).isUncommitted = false := ht
    obtain ⟨seq, stamps, hi⟩ := s.stamps.exists_intern hu
    have he : h.commitDraft handle.slot (draft.stamp.withTime time) seq = _ :=
      commitDraft_eq seq hc
    have hnumber : number (draft.stamp.withTime time) = seq := by
      refine hn _ seq ?_
      simpa [perform_intern hi, he, putHistory, fileCommitted] using StampTable.seq?_of_intern hi
    simp [perform_intern hi, he, putHistory, fileCommitted, history, hnumber, Except.map]

theorem Operation.computes (htarget : op.target? = some n) (s : Store) :
    s.Computes n number (op.onHistory s number (s.history n)) op.action := by
  cases op with
  | append nid stamp values =>
    obtain rfl := Option.some.inj htarget
    exact computes_map _ (computes_append s nid stamp values)
  | updateDraft handle values =>
    obtain rfl := Option.some.inj htarget
    exact computes_map _ (computes_updateDraft s handle values)
  | commit handle time =>
    obtain rfl := Option.some.inj htarget
    exact computes_map _ (computes_commit s handle time)
  | _ => cases htarget

/-- The answer of an operation on versions that finds a history. -/
def Operation.answerOn (s : Store) (number : Stamp → StampSeq) (found : Except Error History)
    (op : Operation) : Except Error Reply :=
  (op.onHistory s number found).map Prod.fst

/-- The history after an operation on versions, the same one if the operation is refused. -/
def Operation.historyAfter (s : Store) (number : Stamp → StampSeq) (found : Except Error History)
    (op : Operation) : Except Error History :=
  match op.onHistory s number found with
  | .ok (_, h) => .ok h
  | .error _ => found

theorem Operation.onHistory_congr (hschemas : t.schemas = s.schemas) (op : Operation)
    (found : Except Error History) : op.onHistory t number found = op.onHistory s number found := by
  have hp : t.payloadFor = s.payloadFor := by
    funext h values
    simp only [payloadFor, Store.schema, hschemas]
  cases op <;> simp [onHistory, appendOn, updateDraftOn, hp]

/-- The answer of an operation on the versions of a component, and what becomes of its history,
    are told by the history, the numbers and the schemas alone. -/
theorem Operation.perform_eq_onHistory (htarget : op.target? = some n)
    (hschemas : t.schemas = s.schemas) (hn : (op.after t).stamps.Numbers number) :
    (op.perform t).1 = op.answerOn s number (t.history n) ∧
      (op.after t).history n = op.historyAfter s number (t.history n) := by
  have hcomputed := Operation.computes htarget t hn
  rw [onHistory_congr hschemas] at hcomputed
  rw [answerOn, historyAfter, after, perform]
  cases hr : op.onHistory s number (t.history n) with
  | error e =>
    rw [hr] at hcomputed
    rw [show op.action.perform t = (.error e, t) from hcomputed]
    exact ⟨rfl, rfl⟩
  | ok found =>
    rw [hr] at hcomputed
    exact hcomputed

/-! ## Runs -/

/-- The operations of a list that are on the versions of a component. -/
def addressedTo (n : Nid) (ops : List Operation) : List Operation :=
  ops.filter fun op => op.target? = some n

/-- What the operations of a run that are on the versions of a component are answered, one
    after the other. -/
def repliesTo (n : Nid) : Store → List Operation → List (Except Error Reply)
  | _, [] => []
  | s, op :: ops =>
    if op.target? = some n then (op.perform s).1 :: repliesTo n (op.after s) ops
    else repliesTo n (op.after s) ops

/-- What operations that find a history one after the other are answered. -/
def answersOn (s : Store) (number : Stamp → StampSeq) :
    Except Error History → List Operation → List (Except Error Reply)
  | _, [] => []
  | found, op :: ops =>
    op.answerOn s number found :: answersOn s number (op.historyAfter s number found) ops

/-- The history that operations leave which find it one after the other. -/
def runOn (s : Store) (number : Stamp → StampSeq) (found : Except Error History)
    (ops : List Operation) : Except Error History :=
  ops.foldl (fun found op => op.historyAfter s number found) found

/-- All operations of a list are on the versions of components. -/
def OnVersions (ops : List Operation) : Prop :=
  ∀ op ∈ ops, ∃ m, op.target? = some m

/-- What is kept by whatever operations on versions leave holds after a run of them. -/
theorem touched_run {P : Store → Prop} (hops : OnVersions ops) (hs : P s)
    (hstep : ∀ t u m, P t → t.Touched m u → P u) : P (s.run ops) := by
  refine run_induction hs fun op hop t ht => ?_
  obtain ⟨m, htarget⟩ := hops op hop
  exact hstep t _ m ht (Operation.touched htarget t)

theorem sameTables_run (hops : OnVersions ops) (s : Store) : s.SameTables (s.run ops) :=
  touched_run (P := s.SameTables) hops ⟨rfl, rfl, rfl, rfl⟩ fun _ _ _ ht htouched =>
    ht.trans htouched.sameTables

theorem internsTo_run (hops : OnVersions ops) (s : Store) :
    s.stamps.InternsTo (s.run ops).stamps :=
  touched_run (P := fun t => s.stamps.InternsTo t.stamps) hops .refl fun _ _ _ ht htouched =>
    ht.trans htouched.internsTo

theorem carries_run (hops : OnVersions ops) (s : Store) : (s.run ops).Carries s.stamps :=
  touched_run (P := fun t => t.Carries s.stamps) hops s.carries_self fun _ _ _ ht htouched =>
    htouched.carries ht

/-- Along a run of operations on versions, what becomes of a component and what is answered for
    it is told by its own history and the operations on it. -/
theorem run_eq_runOn (hops : OnVersions ops) (hschemas : t.schemas = s.schemas)
    (hn : (t.run ops).stamps.Numbers number) (n : Nid) :
    repliesTo n t ops = s.answersOn number (t.history n) (addressedTo n ops) ∧
      (t.run ops).history n = s.runOn number (t.history n) (addressedTo n ops) := by
  induction ops generalizing t with
  | nil => exact ⟨rfl, rfl⟩
  | cons op ops ih =>
    obtain ⟨m, htarget⟩ := hops op List.mem_cons_self
    have htouched := Operation.touched htarget t
    have hrest : OnVersions ops := fun op' hop' => hops op' (List.mem_cons_of_mem _ hop')
    have hlater := ih hrest (htouched.sameTables.schemas.trans hschemas) hn
    by_cases hm : m = n
    · subst hm
      -- the operation is on the component itself, and the number that it takes is final
      obtain ⟨hanswer, hhistory⟩ := Operation.perform_eq_onHistory htarget hschemas
        (hn.of_internsTo (internsTo_run hrest (op.after t)))
      rw [hhistory] at hlater
      have haddressed : addressedTo m (op :: ops) = op :: addressedTo m ops :=
        List.filter_cons_of_pos (decide_eq_true htarget)
      rw [repliesTo, if_pos htarget, hanswer, hlater.1, haddressed]
      exact ⟨rfl, hlater.2⟩
    · -- the operation is on another one
      have hne : op.target? ≠ some n := by
        rw [htarget]
        exact fun heq => hm (Option.some.inj heq)
      rw [htouched.history_of_ne (Ne.symm hm)] at hlater
      have haddressed : addressedTo n (op :: ops) = addressedTo n ops :=
        List.filter_cons_of_neg (by rwa [decide_eq_true_iff])
      rw [repliesTo, if_neg hne, haddressed]
      exact hlater

end Store

end Bitemporal
