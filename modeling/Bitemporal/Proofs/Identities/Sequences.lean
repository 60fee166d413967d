import Bitemporal.Proofs.Identities.Consistency
import Bitemporal.Proofs.Identities.Numbers
import Mathlib.Data.Fintype.Card

/-!
# Numbers among a kind

Components are numbered among their kind in the order in which their kinds are registered. The
table of kinds and the two lists of components are *inverse* to each other
(`Identities.Enumerated`): a component stands in the list of its kind at the place that is its
number there, and nowhere else. A kind is registered of a component that has none, which is
thus in neither list and comes at the end of one (`Enumerated.enlist`). Everything else leaves
kinds and lists alone, also if a number is handed out to a component a second time.

A list holds each component once, and there are only as many components as 32-bit words. So a
number among a kind, which is such a word too, never wraps around
(`Enumerated.length_lt`).
-/

namespace Bitemporal

/-- There are no more components than 32-bit words. -/
theorem Nid.length_le_of_nodup {l : List Nid} (h : l.Nodup) : l.length ≤ UInt32.size := by
  have hinj : Function.Injective fun n : Nid => n.val.toBitVec.toFin := fun a b hab =>
    congrArg Nid.mk (Int32.toBitVec_inj.1 (BitVec.toFin_inj.1 hab))
  simpa using (h.map hinj).length_le_card

namespace Identities

variable {ids ids' : Identities} {nid n : Nid} {uuids : List Uuid} {kind kind' : Kind}
  {seq : SequenceNumber} {place : Nat} {ops : List Operation}

/-! ## Looking up -/

theorem get?_kinds_iff : ids.kinds.get? n = some (kind, seq) ↔
    ids.kindOf n = .ok kind ∧ ids.sequenceOf n = .ok seq := by
  rw [kindOf, sequenceOf]
  cases ids.kinds.get? n <;> simp [Prod.ext_iff]

theorem ofKind_enlist : (ids.enlist nid kind).2.ofKind kind' =
    if kind' = kind then ids.ofKind kind ++ [nid] else ids.ofKind kind' := by
  cases kind <;> cases kind' <;> rfl

theorem fst_enlist : (ids.enlist nid kind).1 = ⟨UInt32.ofNat (ids.ofKind kind).length⟩ := by
  cases kind <;> rfl

/-- What stands where in the lists after one more component has been listed. -/
theorem getElem?_ofKind_enlist : ((ids.enlist nid kind).2.ofKind kind')[place]? = some n ↔
    (ids.ofKind kind')[place]? = some n ∨
      kind' = kind ∧ place = (ids.ofKind kind).length ∧ nid = n := by
  rw [ofKind_enlist]
  by_cases hkind : kind' = kind
  · subst hkind
    rw [if_pos rfl, List.getElem?_append]
    split
    · next hlt => simp [Nat.ne_of_lt hlt]
    · next hge =>
      rw [List.getElem?_eq_none (Nat.not_lt.1 hge), List.getElem?_singleton]
      simp
      omega
  · rw [if_neg hkind]
    simp [hkind]

/-! ## Lists and kinds -/

/-- A component stands at a place of the list of a kind just if it is of the kind and the place
    is its number there. -/
def Enumerated (ids : Identities) : Prop :=
  ∀ kind place n, (ids.ofKind kind)[place]? = some n ↔
    ∃ seq, ids.kinds.get? n = some (kind, seq) ∧ seq.val.toNat = place

theorem enumerated_empty : empty.Enumerated := by
  intro kind place n
  cases kind <;> simp [empty, ofKind]

theorem Enumerated.of_eq (h : ids.Enumerated) (hkinds : ids'.kinds = ids.kinds)
    (hconcepts : ids'.concepts = ids.concepts) (hsemantics : ids'.semantics = ids.semantics) :
    ids'.Enumerated := by
  intro kind place n
  rw [hkinds, ← h kind place n]
  cases kind
  · rw [ofKind, hconcepts, ofKind]
  · rw [ofKind, hsemantics, ofKind]

theorem Enumerated.mem_ofKind_iff (h : ids.Enumerated) :
    n ∈ ids.ofKind kind ↔ ∃ seq, ids.kinds.get? n = some (kind, seq) := by
  simp only [List.mem_iff_getElem?, h kind]
  constructor
  · rintro ⟨-, seq, hk, -⟩
    exact ⟨seq, hk⟩
  · rintro ⟨seq, hk⟩
    exact ⟨seq.val.toNat, seq, hk, rfl⟩

/-- A list holds each component once. -/
theorem Enumerated.nodup_ofKind (h : ids.Enumerated) (kind : Kind) : (ids.ofKind kind).Nodup := by
  refine List.nodup_iff_getElem?_ne_getElem?.2 fun i j hij hj hsame => ?_
  obtain ⟨seq, hk, rfl⟩ := (h kind j _).1 (List.getElem?_eq_getElem hj)
  obtain ⟨seq', hk', rfl⟩ := (h kind i _).1 (hsame.trans (List.getElem?_eq_getElem hj))
  obtain ⟨-, rfl⟩ := Prod.mk.inj (Option.some.inj (hk.symm.trans hk'))
  exact Nat.lt_irrefl _ hij

/-- As long as the kind of some component is not known, there are numbers among each kind. -/
theorem Enumerated.length_lt (h : ids.Enumerated) (hnone : ids.kinds.get? nid = none)
    (kind : Kind) : (ids.ofKind kind).length < UInt32.size := by
  have hnew : nid ∉ ids.ofKind kind := by
    intro hmem
    obtain ⟨seq, hk⟩ := h.mem_ofKind_iff.1 hmem
    rw [hnone] at hk
    cases hk
  exact Nid.length_le_of_nodup (List.nodup_cons.2 ⟨hnew, h.nodup_ofKind kind⟩)

theorem Enumerated.enlist (h : ids.Enumerated) (hnone : ids.kinds.get? nid = none) :
    (ids.enlist nid kind).2.Enumerated := by
  intro kind' place n
  have hseq : (ids.enlist nid kind).1.val.toNat = (ids.ofKind kind).length := by
    rw [fst_enlist]
    exact UInt32.toNat_ofNat_of_lt (h.length_lt hnone kind)
  rw [getElem?_ofKind_enlist, h kind', kinds_enlist, Table.get?_insert]
  by_cases hn : nid = n
  · subst hn
    simp [hnone, hseq, eq_comm]
  · simp [hn]

/-! ## Requests -/

theorem Enumerated.registerKind (h : ids.Enumerated)
    (hr : ids.registerKind nid kind = .ok (seq, ids')) : ids'.Enumerated := by
  obtain ⟨-, ⟨-, rfl⟩ | ⟨hnone, he⟩⟩ := registerKind_eq_ok hr
  · exact h
  · have henlisted : (ids.enlist nid kind).2.Enumerated := h.enlist hnone
    rwa [he] at henlisted

theorem Enumerated.restoreUuids (h : ids.Enumerated)
    (hb : ids.restoreUuids nid uuids = .ok ids') : ids'.Enumerated := by
  obtain ⟨-, rfl⟩ | ⟨-, -, rfl⟩ := restoreUuids_eq_ok hb
  · exact h
  · exact h.of_eq rfl rfl rfl

theorem Restored.enumerated {answer : Except Error SequenceNumber}
    (hr : ids.Restored nid uuids kind answer ids') (h : ids.Enumerated) : ids'.Enumerated := by
  cases hr with
  | refused hb => exact h
  | contradicted hb hk => exact (h.restoreUuids hb).of_eq rfl rfl rfl
  | @installed _ bound _ hb hk =>
    have hmoved : (bound.movePast nid).Enumerated := (h.restoreUuids hb).of_eq rfl rfl rfl
    exact hmoved.registerKind hk

theorem Enumerated.after (h : ids.Enumerated) (op : Operation) : (ids.after op).Enumerated := by
  cases op with
  | nidFor uuids =>
    rw [Identities.after]
    split
    · next hn =>
      obtain ⟨-, rfl⟩ | ⟨-, -, -, rfl⟩ := nidFor_eq_ok hn
      · exact h
      · exact h.of_eq rfl rfl rfl
    · exact h
  | allocate fresh => exact h.of_eq rfl rfl rfl
  | registerKind nid kind =>
    rw [Identities.after]
    split
    · next hr => exact h.registerKind hr
    · exact h
  | restore nid uuids kind => exact (restored ids nid uuids kind).enumerated h
  | reset => exact enumerated_empty

/-! ## Runs -/

theorem Enumerated.run (h : ids.Enumerated) (ops : List Operation) : (ids.run ops).Enumerated :=
  List.foldlRecOn ops _ h fun _ h op _ => h.after op

theorem growsTo_run (hreset : .reset ∉ ops) (ids : Identities) : ids.GrowsTo (ids.run ops) := by
  induction ops generalizing ids with
  | nil => exact .refl ids
  | cons op ops ih =>
    rw [List.mem_cons, not_or] at hreset
    exact (growsTo_after (Ne.symm hreset.1) ids).trans (ih hreset.2 _)

theorem Enumerated.nidAt?_eq_some_iff (h : ids.Enumerated) :
    ids.nidAt? kind seq = some n ↔ ids.kinds.get? n = some (kind, seq) := by
  rw [nidAt?, h kind]
  constructor
  · rintro ⟨seq', hk, hseq⟩
    obtain rfl : seq' = seq := congrArg SequenceNumber.mk (UInt32.toNat_inj.1 hseq)
    exact hk
  · exact fun hk => ⟨seq, hk, rfl⟩

theorem Enumerated.nodup_append (h : ids.Enumerated) : (ids.concepts ++ ids.semantics).Nodup := by
  refine (h.nodup_ofKind .concept).append (h.nodup_ofKind .semantic) fun n hconcept hsemantic => ?_
  obtain ⟨seq, hk⟩ : ∃ seq, ids.kinds.get? n = some (.concept, seq) := h.mem_ofKind_iff.1 hconcept
  obtain ⟨seq', hk'⟩ : ∃ seq, ids.kinds.get? n = some (.semantic, seq) :=
    h.mem_ofKind_iff.1 hsemantic
  rw [hk] at hk'
  cases hk'

/-- After every run of requests, there is a component for just the numbers below the count of
    a kind: the one that is of this kind and has this number. So no component is listed twice.
    Until a reset, kinds and numbers stay, and so do the components at the numbers. -/
theorem run_enumerates (ops : List Operation) :
    (∀ kind seq, ((empty.run ops).nidAt? kind seq).isSome ↔
      seq.val.toNat < ((empty.run ops).ofKind kind).length) ∧
    (∀ kind seq n, (empty.run ops).nidAt? kind seq = some n ↔
      (empty.run ops).kindOf n = .ok kind ∧ (empty.run ops).sequenceOf n = .ok seq) ∧
    ((empty.run ops).concepts ++ (empty.run ops).semantics).Nodup ∧
    ∀ later, .reset ∉ later →
      (∀ n kind, (empty.run ops).kindOf n = .ok kind →
        (empty.run (ops ++ later)).kindOf n = .ok kind) ∧
      (∀ n seq, (empty.run ops).sequenceOf n = .ok seq →
        (empty.run (ops ++ later)).sequenceOf n = .ok seq) ∧
      ∀ kind seq n, (empty.run ops).nidAt? kind seq = some n →
        (empty.run (ops ++ later)).nidAt? kind seq = some n := by
  have henumerated (ops : List Operation) : (empty.run ops).Enumerated :=
    enumerated_empty.run ops
  refine ⟨fun kind seq => by simp [nidAt?], fun kind seq n => ?_,
    (henumerated ops).nodup_append, fun later hreset => ?_⟩
  · rw [(henumerated ops).nidAt?_eq_some_iff, get?_kinds_iff]
  · have hgrows : (empty.run ops).GrowsTo (empty.run (ops ++ later)) := by
      rw [run_append]
      exact growsTo_run hreset _
    refine ⟨fun n kind hk => ?_, fun n seq hs => ?_, fun kind seq n hn => ?_⟩
    · obtain ⟨seq, hk⟩ := kindOf_eq_ok_iff.1 hk
      exact kindOf_eq_ok_iff.2 ⟨seq, hgrows.kinds hk⟩
    · obtain ⟨kind, hs⟩ := sequenceOf_eq_ok_iff.1 hs
      exact sequenceOf_eq_ok_iff.2 ⟨kind, hgrows.kinds hs⟩
    · rw [(henumerated _).nidAt?_eq_some_iff] at hn ⊢
      exact hgrows.kinds hn

/-- The largest number is restored and handed out again, and so the counter wraps around. Then
    a second kind is refused to the component, and another component is registered twice. -/
def wrapped : List Operation :=
  [.restore .last [.uniform 1] .concept, .allocate (.uniform 2), .nidFor [.uniform 3],
    .registerKind .last .semantic, .registerKind ⟨Int32.minValue⟩ .semantic,
    .registerKind ⟨Int32.minValue⟩ .semantic]

theorem run_enumerates_on_wrapped :
    (empty.run (wrapped.take 1)).next = .last ∧ (empty.run (wrapped.take 1)).contains .last = true ∧
      .reset ∉ wrapped.drop 1 ∧
      (empty.run (wrapped.take 1)).kindOf .last = .ok .concept ∧
      (empty.run wrapped).kindOf .last = .ok .concept ∧
      (empty.run wrapped).sequenceOf .last = .ok ⟨0⟩ ∧
      (empty.run wrapped).nidAt? .concept ⟨0⟩ = some .last ∧
      (empty.run wrapped).nidAt? .semantic ⟨0⟩ = some ⟨Int32.minValue⟩ ∧
      (empty.run wrapped).kindOf ⟨Int32.minValue⟩ = .ok .semantic ∧
      (empty.run wrapped).sequenceOf ⟨Int32.minValue⟩ = .ok ⟨0⟩ ∧
      ((empty.run wrapped).nidAt? .semantic ⟨1⟩).isSome = false := by
  have hreset : .reset ∉ wrapped.drop 1 := by simp [wrapped]
  have hfirst : (empty.run (wrapped.take 1)).kindOf .last = .ok .concept := by decide
  have hother : (empty.run wrapped).nidAt? .semantic ⟨0⟩ = some ⟨Int32.minValue⟩ := by decide
  have hcount : ((empty.run wrapped).ofKind .semantic).length = 1 := by decide
  obtain ⟨-, -, -, hstays⟩ := run_enumerates (wrapped.take 1)
  obtain ⟨hkinds, hseqs, hnids⟩ := hstays _ hreset
  rw [List.take_append_drop] at hkinds hseqs hnids
  obtain ⟨hsome, hinverse, -, -⟩ := run_enumerates wrapped
  obtain ⟨hkind, hseq⟩ := (hinverse _ _ _).1 hother
  refine ⟨by decide, by decide, hreset, hfirst, hkinds _ _ hfirst, hseqs _ _ (by decide),
    hnids _ _ _ (by decide), hother, hkind, hseq, ?_⟩
  rw [← Bool.not_eq_true, hsome, hcount]
  decide

end Identities

end Bitemporal
