import Bitemporal.Proofs.Store.Operation
import Bitemporal.Proofs.Store.Outcomes
import Mathlib

/-!
# Checks before changes

Some operations look at everything that may be wrong with them before they change
anything: those on versions, and those that declare a schema or a path
(`Operation.Checked`). What they look at only reads the store (`Operation.check`), and it
decides alone what becomes of them: if the checks refuse, the operation is refused for the
same cause with nothing done, and if they pass, it is answered (`Operation.guardedBy`).

Behind the checks there are steps that might refuse by themselves, as a stamp is interned
and a version is put at the end of its history. That they do not is what makes a refusal
leave no stamp (`StampTable.exists_intern`, `appendCommitted_eq`, `commitDraft_eq`).

So a refused operation of this kind is as good as one that was never requested
(`Store.refused_leaves_store`, `Store.run_withoutRefused`).
-/

namespace Bitemporal.Store

open Bitemporal.Store.Action

variable {α β γ : Type} {s : Store}

/-! ## Actions that are guarded by checks -/

/-- An action is guarded by checks: if they refuse, it is refused for the same cause and
    nothing is done, and if they pass, it is answered. -/
def GuardedBy (s : Store) (check : Except Error β) (a : Action α) : Prop :=
  match check with
  | .error e => a.perform s = (.error e, s)
  | .ok _ => ∃ x t, a.perform s = (.ok x, t)

/-- An action that is answered is guarded by checks that passed. -/
theorem guardedBy_ok {a : Action α} (u : β) (ha : ∃ x t, a.perform s = (.ok x, t)) :
    s.GuardedBy (.ok u) a :=
  ha

theorem guardedBy_get {check : Except Error β} {f : Store → Action α}
    (hf : s.GuardedBy check (f s)) : s.GuardedBy check (get >>= f) := by
  cases check <;> simpa only [GuardedBy, perform_bind, perform_get] using hf

/-- An action that begins with a check is guarded by it and by what guards the rest. -/
theorem guardedBy_bind {x : Except Error γ} {check : γ → Except Error β} {f : γ → Action α}
    (hf : ∀ c, x = .ok c → s.GuardedBy (check c) (f c)) :
    s.GuardedBy (x >>= check) (liftM x >>= f) := by
  cases x with
  | error e => simp [GuardedBy]
  | ok c =>
    have hc := hf c rfl
    show s.GuardedBy (check c) (liftM (Except.ok c) >>= f)
    cases hcheck : check c <;>
      simpa only [GuardedBy, hcheck, perform_bind, perform_lift] using hc

/-- An action that is answered once its first step is not refused is guarded by that step. -/
theorem guardedBy_lift {x : Except Error γ} {f : γ → Action α}
    (hf : ∀ c, x = .ok c → ∃ a t, (f c).perform s = (.ok a, t)) :
    s.GuardedBy x (liftM x >>= f) := by
  cases x with
  | error e => simp [GuardedBy]
  | ok c =>
    obtain ⟨a, t, ha⟩ := hf c rfl
    exact guardedBy_ok c ⟨a, t, by simpa using ha⟩

theorem guardedBy_map {check : Except Error β} {a : Action α} (f : α → γ)
    (ha : s.GuardedBy check a) : s.GuardedBy check (f <$> a) := by
  cases check with
  | error e =>
    rw [GuardedBy] at ha ⊢
    rw [perform_map, ha]
    rfl
  | ok u =>
    obtain ⟨x, t, ha⟩ := ha
    refine guardedBy_ok u ⟨f x, t, ?_⟩
    rw [perform_map, ha]
    rfl

/-! ## Operations that are guarded by checks -/

/-- The operations that make all of their checks before they change anything. -/
inductive Operation.Checked : Operation → Prop
  | append (nid : Nid) (stamp : Stamp) (values : List FieldValue) :
      Checked (.append nid stamp values)
  | updateDraft (handle : Handle) (values : List FieldValue) : Checked (.updateDraft handle values)
  | commit (handle : Handle) (time : Timestamp) : Checked (.commit handle time)
  | defineAssemblage (assemblage : Nid) (schema : Schema) :
      Checked (.defineAssemblage assemblage schema)
  | declarePath (path : Nid) (origins : List Origin) : Checked (.declarePath path origins)

/-- Refuses another schema than the one that an assemblage has. -/
def checkSchema (s : Store) (assemblage : Nid) (schema : Schema) : Except Error Unit :=
  match s.schemas.get? assemblage with
  | some held =>
    if held = schema then .ok () else .error (.invalidOperation (.otherSchema assemblage))
  | none => .ok ()

/-- The checks that an operation makes before it changes anything; none for those that go
    on checking afterwards, or have nothing to check. -/
def Operation.check (s : Store) : Operation → Except Error Unit
  | append nid stamp values => do
    let h ← s.history nid
    let _ ← s.payloadFor h values
    if stamp.isUncommitted then return () else h.checkOrder stamp.time
  | updateDraft handle values => do
    let h ← s.history handle.nid
    let _ ← s.payloadFor h values
    let _ ← h.draft handle.slot
    return ()
  | commit handle time => do
    if time.isUncommitted then throw .uncommittedStamp
    let h ← s.history handle.nid
    let _ ← h.checkCommit handle.slot time
    return ()
  | defineAssemblage assemblage schema =>
    if s.identities.contains assemblage then s.checkSchema assemblage schema
    else .error (.unknownIdentifier assemblage)
  | declarePath path origins => do
    checkConcepts s.identities (path :: origins.map Origin.path)
    let _ ← s.lineage.declare path origins
    return ()
  | _ => .ok ()

theorem guardedBy_append (s : Store) (nid : Nid) (stamp : Stamp) (values : List FieldValue) :
    s.GuardedBy ((Operation.append nid stamp values).check s) (append nid stamp values) := by
  refine guardedBy_get (guardedBy_bind fun h hh => ?_)
  refine guardedBy_get (guardedBy_bind fun payload hp => ?_)
  cases hu : stamp.isUncommitted with
  | true => exact guardedBy_ok () ⟨_, _, rfl⟩
  | false =>
    refine guardedBy_lift fun _ ho => ?_
    obtain ⟨seq, stamps, hi⟩ := s.stamps.exists_intern hu
    have ha : h.appendCommitted ⟨stamp, seq, payload⟩ = _ := appendCommitted_eq ho
    simp [perform_intern hi, ha, putHistory, fileCommitted, Except.map]

theorem guardedBy_updateDraft (s : Store) (handle : Handle) (values : List FieldValue) :
    s.GuardedBy ((Operation.updateDraft handle values).check s) (updateDraft handle values) := by
  refine guardedBy_get (guardedBy_bind fun h hh => ?_)
  refine guardedBy_get (guardedBy_bind fun payload hp => ?_)
  cases hd : h.draft handle.slot <;>
    simp [GuardedBy, History.replacePayload, hd, putHistory]

theorem guardedBy_commit (s : Store) (handle : Handle) (time : Timestamp) :
    s.GuardedBy ((Operation.commit handle time).check s) (commit handle time) := by
  rw [commit, Operation.check]
  cases ht : time.isUncommitted with
  | true => rfl
  | false =>
    refine guardedBy_get (guardedBy_bind fun h hh => ?_)
    refine guardedBy_bind fun draft hc => ?_
    have hu : (draft.stamp.withTime time).isUncommitted = false := ht
    obtain ⟨seq, stamps, hi⟩ := s.stamps.exists_intern hu
    have he : h.commitDraft handle.slot (draft.stamp.withTime time) seq = _ :=
      commitDraft_eq seq hc
    refine guardedBy_ok () ?_
    simp [perform_intern hi, he, putHistory, fileCommitted, Except.map]

theorem guardedBy_defineAssemblage (s : Store) (assemblage : Nid) (schema : Schema) :
    s.GuardedBy ((Operation.defineAssemblage assemblage schema).check s)
      (defineAssemblage assemblage schema) := by
  refine guardedBy_get ?_
  cases hc : s.identities.contains assemblage with
  | false => simp [GuardedBy, Operation.check, hc]
  | true =>
    cases hg : s.schemas.get? assemblage with
    | none => simp [GuardedBy, Operation.check, checkSchema, installSchema, hc, hg, Except.map]
    | some held =>
      by_cases hs : held = schema <;>
        simp [GuardedBy, Operation.check, checkSchema, installSchema, hc, hg, hs]

theorem guardedBy_declarePath (s : Store) (path : Nid) (origins : List Origin) :
    s.GuardedBy ((Operation.declarePath path origins).check s) (declarePath path origins) := by
  refine guardedBy_get (guardedBy_bind fun _ hc => guardedBy_bind fun lineage hd => ?_)
  exact guardedBy_ok () ⟨_, _, rfl⟩

/-- What becomes of an operation is decided by its checks. -/
theorem Operation.guardedBy {op : Operation} (hop : op.Checked) (s : Store) :
    s.GuardedBy (op.check s) op.action := by
  cases hop with
  | append nid stamp values => exact guardedBy_map _ (guardedBy_append s nid stamp values)
  | updateDraft handle values => exact guardedBy_map _ (guardedBy_updateDraft s handle values)
  | commit handle time => exact guardedBy_map _ (guardedBy_commit s handle time)
  | defineAssemblage assemblage schema =>
    exact guardedBy_map _ (guardedBy_defineAssemblage s assemblage schema)
  | declarePath path origins => exact guardedBy_map _ (guardedBy_declarePath s path origins)

/-! ## Refused operations -/

namespace Operation

variable {op : Operation} {e : Error}

theorem checked_of_check_eq_error (hc : op.check s = .error e) : op.Checked := by
  cases op with
  | append nid stamp values => exact .append ..
  | updateDraft handle values => exact .updateDraft ..
  | commit handle time => exact .commit ..
  | defineAssemblage assemblage schema => exact .defineAssemblage ..
  | declarePath path origins => exact .declarePath ..
  | _ => cases hc

theorem perform_of_check_eq_error (hc : op.check s = .error e) : op.perform s = (.error e, s) := by
  have hg := guardedBy (checked_of_check_eq_error hc) s
  rwa [hc] at hg

theorem exists_reply_of_check_eq_ok {u : Unit} (hop : op.Checked) (hc : op.check s = .ok u) :
    ∃ reply t, op.perform s = (.ok reply, t) := by
  have hg := guardedBy hop s
  rwa [hc] at hg

end Operation

/-- An operation on versions, or one that declares a schema or a path, is refused exactly if
    its checks are, for the same cause, and then the whole store is as it was. -/
theorem refused_leaves_store {op : Operation} (hop : op.Checked) (s : Store) (e : Error) :
    ((op.perform s).1 = .error e ↔ op.check s = .error e) ∧
    ((op.perform s).1 = .error e → op.after s = s) := by
  have hchecks : (op.perform s).1 = .error e ↔ op.check s = .error e := by
    cases hc : op.check s with
    | error e' => simp [Operation.perform_of_check_eq_error hc]
    | ok u =>
      obtain ⟨reply, t, hanswered⟩ := Operation.exists_reply_of_check_eq_ok hop hc
      simp [hanswered]
  refine ⟨hchecks, fun hrefused => ?_⟩
  rw [Operation.after, Operation.perform_of_check_eq_error (hchecks.1 hrefused)]

/-- A version before the last commit is refused, and its stamp is not interned. -/
theorem refused_leaves_store_of_regression :
    ((Operation.append ⟨2⟩ (foundingStamp ⟨12⟩) [.nid ⟨9⟩]).perform (empty.run founding)).1 =
      .error (.timeRegression ⟨2⟩ ⟨20⟩ ⟨12⟩) ∧
    (Operation.append ⟨2⟩ (foundingStamp ⟨12⟩) [.nid ⟨9⟩]).after (empty.run founding) =
      empty.run founding ∧
    (empty.run founding).stamps.seq? (foundingStamp ⟨12⟩) = none := by
  have hrefused : ((Operation.append ⟨2⟩ (foundingStamp ⟨12⟩) [.nid ⟨9⟩]).perform
      (empty.run founding)).1 = .error (.timeRegression ⟨2⟩ ⟨20⟩ ⟨12⟩) := by cbv
  obtain ⟨-, hleaves⟩ := refused_leaves_store (.append ⟨2⟩ (foundingStamp ⟨12⟩) [.nid ⟨9⟩])
    (empty.run founding) (.timeRegression ⟨2⟩ ⟨20⟩ ⟨12⟩)
  exact ⟨hrefused, hleaves hrefused, by cbv⟩

/-- A run without the operations that their checks refuse. -/
def withoutRefused : Store → List Operation → List Operation
  | _, [] => []
  | s, op :: ops =>
    match op.check s with
    | .error _ => withoutRefused s ops
    | .ok _ => op :: withoutRefused (op.after s) ops

/-- What is refused by its checks might as well not have been requested. -/
theorem run_withoutRefused (s : Store) (ops : List Operation) :
    s.run (withoutRefused s ops) = s.run ops := by
  induction ops generalizing s with
  | nil => rfl
  | cons op ops ih =>
    rw [withoutRefused, run_cons]
    cases hc : op.check s with
    | error e =>
      have hsame : op.after s = s := by
        rw [Operation.after, Operation.perform_of_check_eq_error hc]
      rw [hsame]
      exact ih s
    | ok u => exact ih (op.after s)

end Bitemporal.Store
