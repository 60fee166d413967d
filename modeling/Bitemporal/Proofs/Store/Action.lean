import Bitemporal.Store

/-!
# Performing actions

An action is performed on a store. The lemmas say what each primitive action
answers and leaves, and how a sequence of actions is performed: a refusal ends it,
and what was done before the refusal is kept.
-/

namespace Bitemporal.Store.Action

variable {α β : Type}

@[simp] theorem perform_pure (a : α) (s : Store) : (pure a : Action α).perform s = (.ok a, s) := rfl

@[simp] theorem perform_throw (e : Error) (s : Store) :
    (throw e : Action α).perform s = (.error e, s) := rfl

@[simp] theorem perform_get (s : Store) : (get : Action Store).perform s = (.ok s, s) := rfl

@[simp] theorem perform_set (s t : Store) : (set t : Action PUnit).perform s = (.ok ⟨⟩, t) := rfl

@[simp] theorem perform_modify (f : Store → Store) (s : Store) :
    (modify f : Action PUnit).perform s = (.ok ⟨⟩, f s) := rfl

@[simp] theorem perform_lift (x : Except Error α) (s : Store) :
    (liftM x : Action α).perform s = (x, s) := rfl

@[simp] theorem perform_bind (x : Action α) (f : α → Action β) (s : Store) :
    (x >>= f).perform s =
      match x.perform s with
      | (.ok a, t) => (f a).perform t
      | (.error e, t) => (.error e, t) := by
  unfold perform
  rw [ExceptT.run_bind, StateT.run_bind]
  rcases x.run.run s with ⟨e | a, t⟩ <;> rfl

@[simp] theorem perform_map (f : α → β) (x : Action α) (s : Store) :
    (f <$> x).perform s = ((x.perform s).1.map f, (x.perform s).2) := by
  rw [map_eq_pure_bind, perform_bind]
  rcases x.perform s with ⟨e | a, t⟩ <;> rfl

end Bitemporal.Store.Action
