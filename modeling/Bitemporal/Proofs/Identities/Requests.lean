import Bitemporal.Identities

/-!
# What requests to identities come to

The component of a list of identifiers is that of some of them, and there is none just
when none of them is known (`owner?_eq_ok_none_iff`). For each request that changes
identities, a lemma says everything that it can come to: what it found, and the
identities after it. What is said about identities elsewhere is said by cases on these.
-/

namespace Bitemporal.Identities

variable {ids ids' : Identities} {nid : Nid} {uuids : List Uuid} {kind : Kind}

/-! ## Looking up -/

theorem ownerFrom_eq_ok_none_iff {found : Option Nid} :
    ids.ownerFrom found uuids = .ok none ↔ found = none ∧ ∀ u ∈ uuids, ids.nidOf? u = none := by
  fun_induction ids.ownerFrom found uuids with
  | case1 found => simp
  | case2 found u rest hu ih => simp [ih, hu]
  | case3 u rest n hu ih => simp [ih, hu]
  | case4 u rest n hu ih => simp [ih]
  | case5 u rest first n hu hne => simp

/-- No component is found just when no identifier is known. -/
theorem owner?_eq_ok_none_iff :
    ids.owner? uuids = .ok none ↔ ∀ u ∈ uuids, ids.nidOf? u = none := by
  simp [owner?, ownerFrom_eq_ok_none_iff]

theorem ownerFrom_eq_ok_some_iff {found : Option Nid} :
    ids.ownerFrom found uuids = .ok (some nid) ↔
      (found = some nid ∨ ∃ u ∈ uuids, ids.nidOf? u = some nid) ∧
        (∀ n, found = some n → n = nid) ∧ ∀ u ∈ uuids, ∀ n, ids.nidOf? u = some n → n = nid := by
  fun_induction ids.ownerFrom found uuids with
  | case1 found => simp +contextual
  | case2 found u rest hu ih => simp [ih, hu]
  | case3 u rest n hu ih => simp [ih, hu]
  | case4 u rest n hu ih => simp [ih, hu]
  | case5 u rest first n hu hne =>
    refine iff_of_false (fun h => by cases h) fun ⟨_, hfirst, hall⟩ => hne ?_
    rw [hfirst first rfl, hall u List.mem_cons_self n hu]

/-- A component that is found has one of the identifiers, and no other component has any. -/
theorem owner?_eq_ok_some_iff :
    ids.owner? uuids = .ok (some nid) ↔ (∃ u ∈ uuids, ids.nidOf? u = some nid) ∧
      ∀ u ∈ uuids, ∀ n, ids.nidOf? u = some n → n = nid := by
  simp [owner?, ownerFrom_eq_ok_some_iff]

theorem owner?_eq_ok_some (h : ids.owner? uuids = .ok (some nid)) :
    ∃ u ∈ uuids, ids.nidOf? u = some nid :=
  (owner?_eq_ok_some_iff.1 h).1

/-- No component is told just when two components have some of the identifiers. -/
theorem exists_owner?_eq_error_iff :
    (∃ e, ids.owner? uuids = .error e) ↔ ∃ u ∈ uuids, ∃ v ∈ uuids, ∃ n m,
      ids.nidOf? u = some n ∧ ids.nidOf? v = some m ∧ n ≠ m := by
  refine ⟨fun ⟨e, he⟩ => ?_, fun ⟨u, hu, v, hv, n, m, hn, hm, hne⟩ => ?_⟩
  · refine Classical.byContradiction fun hone => ?_
    -- if no two of them have different components, one of the two answers is given
    by_cases hknown : ∃ u ∈ uuids, ∃ n, ids.nidOf? u = some n
    · obtain ⟨u, hu, n, hn⟩ := hknown
      have hsome : ids.owner? uuids = .ok (some n) := by
        refine owner?_eq_ok_some_iff.2 ⟨⟨u, hu, hn⟩, fun v hv m hm => ?_⟩
        refine Classical.byContradiction fun hne => ?_
        exact hone ⟨v, hv, u, hu, m, n, hm, hn, hne⟩
      rw [he] at hsome
      cases hsome
    · have hnone : ids.owner? uuids = .ok none := by
        refine owner?_eq_ok_none_iff.2 fun u hu => ?_
        exact Option.eq_none_iff_forall_ne_some.2 fun n hn => hknown ⟨u, hu, n, hn⟩
      rw [he] at hnone
      cases hnone
  · match ho : ids.owner? uuids with
    | .error e => exact ⟨e, rfl⟩
    | .ok none =>
      rw [owner?_eq_ok_none_iff.1 ho u hu] at hn
      cases hn
    | .ok (some k) =>
      obtain ⟨-, hall⟩ := owner?_eq_ok_some_iff.1 ho
      exact absurd ((hall u hu n hn).trans (hall v hv m hm).symm) hne

theorem contains_eq_false_iff : ids.contains nid = false ↔ ids.uuids.get? nid = none := by
  rw [contains, Table.contains, Option.isSome_eq_false_iff, Option.isNone_iff_eq_none]

theorem uuidsOf_eq_ok_iff : ids.uuidsOf nid = .ok uuids ↔ ids.uuids.get? nid = some uuids := by
  rw [uuidsOf]
  cases ids.uuids.get? nid <;> simp

theorem kindOf_eq_ok_iff :
    ids.kindOf nid = .ok kind ↔ ∃ seq, ids.kinds.get? nid = some (kind, seq) := by
  rw [kindOf]
  cases ids.kinds.get? nid <;> simp [Prod.ext_iff]

theorem kindOf_of_get? (h : ∃ seq, ids.kinds.get? nid = some (kind, seq)) :
    ids.kindOf nid = .ok kind :=
  kindOf_eq_ok_iff.2 h

theorem sequenceOf_eq_ok_iff {seq : SequenceNumber} :
    ids.sequenceOf nid = .ok seq ↔ ∃ kind, ids.kinds.get? nid = some (kind, seq) := by
  rw [sequenceOf]
  cases ids.kinds.get? nid <;> simp [Prod.ext_iff]

theorem get?_assign {owners : Table Uuid Nid} {u : Uuid} :
    (assign owners nid uuids).get? u = if u ∈ uuids then some nid else owners.get? u := by
  induction uuids generalizing owners with
  | nil => rfl
  | cons v rest ih =>
    have hstep : assign owners nid (v :: rest) = assign (owners.insert v nid) nid rest := rfl
    rw [hstep, ih, Table.get?_insert]
    by_cases hr : u ∈ rest
    · rw [if_pos hr, if_pos (List.mem_cons_of_mem _ hr)]
    · by_cases hv : v = u
      · subst hv
        simp [hr]
      · simp [hr, hv, Ne.symm hv]

theorem get?_uuids_bind {n : Nid} : (ids.bind nid uuids).uuids.get? n =
    if nid = n then some uuids else ids.uuids.get? n :=
  Table.get?_insert ..

theorem get?_owners_bind {u : Uuid} : (ids.bind nid uuids).nidOf? u =
    if u ∈ uuids then some nid else ids.nidOf? u :=
  get?_assign

theorem contains_bind_self : (ids.bind nid uuids).contains nid = true := by
  rw [contains, Table.contains, get?_uuids_bind, if_pos rfl]
  rfl

/-! ## Changes -/

/-- Identities that give the next number to a component. -/
def bindNext (ids : Identities) (uuids : List Uuid) : Identities :=
  { ids.bind ids.next uuids with next := ids.next.next }

/-- Identities whose counter has been moved past a number. -/
def movePast (ids : Identities) (nid : Nid) : Identities :=
  { ids with next := max ids.next nid.nextSaturating }

section

variable (ids nid kind)

@[simp] theorem owners_enlist : (ids.enlist nid kind).2.owners = ids.owners := by
  cases kind <;> rfl

@[simp] theorem uuids_enlist : (ids.enlist nid kind).2.uuids = ids.uuids := by
  cases kind <;> rfl

@[simp] theorem next_enlist : (ids.enlist nid kind).2.next = ids.next := by
  cases kind <;> rfl

@[simp] theorem kinds_enlist :
    (ids.enlist nid kind).2.kinds = ids.kinds.insert nid (kind, (ids.enlist nid kind).1) := by
  cases kind <;> rfl

end

theorem nidFor_eq_ok (h : ids.nidFor uuids = .ok (nid, ids')) :
    (ids.owner? uuids = .ok (some nid) ∧ ids' = ids) ∨
      (uuids ≠ [] ∧ ids.owner? uuids = .ok none ∧ nid = ids.next ∧
        ids' = ids.bindNext (distinct uuids)) := by
  rw [nidFor] at h
  split at h
  · cases h
  · next hne =>
    split at h
    · cases h
    · next owner ho =>
      obtain ⟨rfl, rfl⟩ := Prod.mk.inj (Except.ok.inj h)
      exact .inl ⟨ho, rfl⟩
    · next ho =>
      obtain ⟨rfl, rfl⟩ := Prod.mk.inj (Except.ok.inj h)
      refine .inr ⟨?_, ho, rfl, rfl⟩
      rintro rfl
      exact hne rfl

/-- If a component has one of the identifiers, an answer can be no other component, and nothing
    is changed. -/
theorem nidFor_eq_ok_of_bound {n : Nid} (hbound : ∃ u ∈ uuids, ids.nidOf? u = some nid)
    (h : ids.nidFor uuids = .ok (n, ids')) :
    n = nid ∧ ids' = ids ∧ ∀ u ∈ uuids, ∀ m, ids.nidOf? u = some m → m = nid := by
  obtain ⟨u, hu, hn⟩ := hbound
  rcases nidFor_eq_ok h with ⟨ho, rfl⟩ | ⟨-, ho, -, -⟩
  · obtain ⟨-, hone⟩ := owner?_eq_ok_some_iff.1 ho
    obtain rfl := hone u hu nid hn
    exact ⟨rfl, rfl, hone⟩
  · rw [owner?_eq_ok_none_iff.1 ho u hu] at hn
    cases hn

/-- The component of some of the identifiers is the answer. -/
theorem nidFor_of_owner (ho : ids.owner? uuids = .ok (some nid)) :
    ids.nidFor uuids = .ok (nid, ids) := by
  obtain ⟨u, hu, -⟩ := owner?_eq_ok_some ho
  have hne : ¬ uuids.isEmpty = true := fun h => List.ne_nil_of_mem hu (List.isEmpty_iff.1 h)
  rw [nidFor, if_neg hne, ho]

theorem nidFor_of_unknown (hne : uuids ≠ []) (ho : ids.owner? uuids = .ok none) :
    ids.nidFor uuids = .ok (ids.next, ids.bindNext (distinct uuids)) := by
  rw [nidFor, if_neg fun h => hne (List.isEmpty_iff.1 h), ho]
  rfl

theorem registerKind_eq_ok {seq : SequenceNumber}
    (h : ids.registerKind nid kind = .ok (seq, ids')) : ids.contains nid = true ∧
      ((ids.kinds.get? nid = some (kind, seq) ∧ ids' = ids) ∨
        (ids.kinds.get? nid = none ∧ ids.enlist nid kind = (seq, ids'))) := by
  rw [registerKind] at h
  split at h
  · next hc =>
    split at h
    · next hk => exact ⟨hc, .inr ⟨hk, Except.ok.inj h⟩⟩
    · next registered seq' hk =>
      split at h
      · next hkind =>
        obtain ⟨rfl, rfl⟩ := Prod.mk.inj (Except.ok.inj h)
        exact ⟨hc, .inl ⟨hkind ▸ hk, rfl⟩⟩
      · cases h
  · cases h

/-- Registering a kind changes neither identifiers nor the counter. -/
theorem registerKind_keeps {seq : SequenceNumber}
    (h : ids.registerKind nid kind = .ok (seq, ids')) :
    ids'.owners = ids.owners ∧ ids'.uuids = ids.uuids ∧ ids'.next = ids.next := by
  obtain ⟨-, ⟨-, rfl⟩ | ⟨-, he⟩⟩ := registerKind_eq_ok h
  · exact ⟨rfl, rfl, rfl⟩
  · obtain rfl : (ids.enlist nid kind).2 = ids' := by rw [he]
    exact ⟨owners_enlist .., uuids_enlist .., next_enlist ..⟩

theorem registerKind_of_unknown (hc : ids.contains nid = true) (hk : ids.kinds.get? nid = none) :
    ids.registerKind nid kind = .ok (ids.enlist nid kind) := by
  rw [registerKind, if_pos hc, hk]

theorem registerKind_of_known {seq : SequenceNumber} (hc : ids.contains nid = true)
    (hk : ids.kinds.get? nid = some (kind, seq)) :
    ids.registerKind nid kind = .ok (seq, ids) := by
  rw [registerKind, if_pos hc, hk]
  exact if_pos rfl

theorem restoreUuids_eq_ok (h : ids.restoreUuids nid uuids = .ok ids') :
    (ids.owner? uuids = .ok (some nid) ∧ ids' = ids) ∨
      (ids.owner? uuids = .ok none ∧ ids.contains nid = false ∧ ids' = ids.bind nid uuids) := by
  rw [restoreUuids] at h
  split at h
  · cases h
  · next owner ho =>
    split at h
    · next heq => exact .inl ⟨heq ▸ ho, (Except.ok.inj h).symm⟩
    · cases h
  · next ho =>
    split at h
    · cases h
    · next hc => exact .inr ⟨ho, Bool.eq_false_iff.2 hc, (Except.ok.inj h).symm⟩

/-- What restoring a mapping can come to. -/
inductive Restored (ids : Identities) (nid : Nid) (uuids : List Uuid) (kind : Kind) :
    Except Error SequenceNumber → Identities → Prop
  | refused {e : Error} : ids.restoreUuids nid uuids = .error e →
      Restored ids nid uuids kind (.error e) ids
  | contradicted {e : Error} {bound : Identities} : ids.restoreUuids nid uuids = .ok bound →
      (bound.movePast nid).registerKind nid kind = .error e →
      Restored ids nid uuids kind (.error e) (bound.movePast nid)
  | installed {seq : SequenceNumber} {bound ids' : Identities} :
      ids.restoreUuids nid uuids = .ok bound →
      (bound.movePast nid).registerKind nid kind = .ok (seq, ids') →
      Restored ids nid uuids kind (.ok seq) ids'

/-- Once identifiers are bound, what is left of restoring a mapping is its kind. -/
theorem restore_eq {bound : Identities} (hb : ids.restoreUuids nid uuids = .ok bound) :
    ids.restore nid uuids kind =
      match (bound.movePast nid).registerKind nid kind with
      | .error e => (.error e, bound.movePast nid)
      | .ok (seq, ids') => (.ok seq, ids') := by
  rw [restore, hb]
  rfl

theorem restored (ids : Identities) (nid : Nid) (uuids : List Uuid) (kind : Kind) :
    Restored ids nid uuids kind (ids.restore nid uuids kind).1 (ids.restore nid uuids kind).2 := by
  cases hb : ids.restoreUuids nid uuids with
  | error e =>
    rw [restore, hb]
    exact .refused hb
  | ok bound =>
    rw [restore_eq hb]
    cases hk : (bound.movePast nid).registerKind nid kind with
    | error e => exact .contradicted hb hk
    | ok p => exact .installed hb hk

/-- A mapping is restored under a number of which nothing is known. -/
theorem restore_of_unknown (ho : ids.owner? uuids = .ok none) (hc : ids.contains nid = false)
    (hk : ids.kinds.get? nid = none) :
    ids.restore nid uuids kind =
      (.ok (((ids.bind nid uuids).movePast nid).enlist nid kind).1,
        (((ids.bind nid uuids).movePast nid).enlist nid kind).2) := by
  have hb : ids.restoreUuids nid uuids = .ok (ids.bind nid uuids) := by
    rw [restoreUuids, ho]
    dsimp only
    rw [hc, if_neg Bool.false_ne_true]
  have hbound : ((ids.bind nid uuids).movePast nid).contains nid = true := contains_bind_self
  rw [restore_eq hb, registerKind_of_unknown hbound hk]

end Bitemporal.Identities
