import Bitemporal.Proofs.Identities.Consistency
import Bitemporal.Proofs.Identities.Numbers

/-!
# What identities hold to

Identities keep what they know in two maps, a counter and a map of kinds, and requests
write to one after the other. As long as the largest number is neither handed out nor
restored, and a number is handed out only for an identifier that is made for it
(`Identities.Orderly`), identities are *sound* at every moment of a run, whether requests
are answered or refused, and across resets (`Identities.run_sound`).

A request binds identifiers of which none is known, and it binds them to the next number
or to one that is not in use, if it touches the two maps at all (`Rebound`). So a known
identifier stays where it is. That the next number is not in use either comes from the
counter, which is ahead of all numbers (`Ahead`); hence no number loses identifiers, and
the two maps stay inverse to each other (`Matched`). A restored mapping whose kind is
refused has bound nothing: kinds are known of numbers in use only (`KindsKnown`), and of
these the counter is ahead already.
-/

namespace Bitemporal

namespace Nid

variable {a b : Nid}

theorem max_eq_left_of_le (h : b ≤ a) : max a b = a := by
  show (if a ≤ b then b else a) = a
  split
  · next hle => exact ext_toInt (Int.le_antisymm (le_iff.1 h) (le_iff.1 hle))
  · rfl

theorem nextSaturating_le (h : a < b) : a.nextSaturating ≤ b := by
  rw [nextSaturating]
  split
  · exact Nid.le_of_lt h
  · next hne =>
    have hval : a.val.toInt ≠ 2147483647 := fun e => hne (Int32.toInt_inj.1 e)
    have hle : a.val.toInt ≤ 2147483647 := a.val.toInt_le
    have hge := a.val.le_toInt
    have hone : (1 : Int32).toInt = 1 := rfl
    rw [lt_iff] at h
    rw [le_iff, next, Int32.toInt_add, hone, Int.bmod_eq_of_le (by omega) (by omega)]
    omega

end Nid

namespace Identities

variable {ids ids' : Identities} {op : Operation} {ops : List Operation}
  {u : Uuid} {n nid : Nid} {uuids : List Uuid} {kind : Kind}

/-! ## One request -/

/-- What a request does to the two maps: it leaves them, or it binds identifiers of which
    none is known, to the next number or to one that is not in use. -/
inductive Rebound (ids ids' : Identities) : Prop
  | kept : ids'.owners = ids.owners → ids'.uuids = ids.uuids → Rebound ids ids'
  | bound (nid : Nid) (uuids : List Uuid) : (∀ u ∈ uuids, ids.nidOf? u = none) →
      nid = ids.next ∨ ids.contains nid = false → ids'.owners = (ids.bind nid uuids).owners →
      ids'.uuids = (ids.bind nid uuids).uuids → Rebound ids ids'

theorem Rebound.refl (ids : Identities) : ids.Rebound ids :=
  .kept rfl rfl

theorem rebound_nidFor (h : ids.nidFor uuids = .ok (nid, ids')) : ids.Rebound ids' := by
  rcases nidFor_eq_ok h with ⟨-, rfl⟩ | ⟨-, ho, -, rfl⟩
  · exact .refl ids'
  · refine .bound ids.next (distinct uuids) (fun u hu => ?_) (.inl rfl) rfl rfl
    exact owner?_eq_ok_none_iff.1 ho u (mem_distinct.1 hu)

theorem rebound_restoreUuids (h : ids.restoreUuids nid uuids = .ok ids') : ids.Rebound ids' := by
  rcases restoreUuids_eq_ok h with ⟨-, rfl⟩ | ⟨ho, hc, rfl⟩
  · exact .refl ids'
  · exact .bound nid uuids (owner?_eq_ok_none_iff.1 ho) (.inr hc) rfl rfl

/-- The counter and the kinds do not matter. -/
theorem Rebound.of_eq {ids'' : Identities} (h : ids.Rebound ids') (ho : ids''.owners = ids'.owners)
    (hu : ids''.uuids = ids'.uuids) : ids.Rebound ids'' := by
  cases h with
  | kept ho' hu' => exact .kept (ho.trans ho') (hu.trans hu')
  | bound nid uuids hnew hroom ho' hu' =>
    exact .bound nid uuids hnew hroom (ho.trans ho') (hu.trans hu')

theorem Restored.rebound {answer : Except Error SequenceNumber}
    (h : ids.Restored nid uuids kind answer ids') : ids.Rebound ids' := by
  cases h with
  | refused hb => exact .refl ids
  | contradicted hb hk => exact (rebound_restoreUuids hb).of_eq rfl rfl
  | installed hb hk =>
    obtain ⟨ho, hu, -⟩ := registerKind_keeps hk
    exact (rebound_restoreUuids hb).of_eq ho hu

theorem rebound_after (hop : op.Regular ids) : ids.Rebound (ids.after op) := by
  cases op with
  | nidFor uuids =>
    rw [Identities.after]
    split
    · next h => exact rebound_nidFor h
    · exact .refl ids
  | allocate fresh =>
    refine .bound ids.next [fresh] (fun u hu => ?_) (.inl rfl) rfl rfl
    rw [List.mem_singleton.1 hu]
    exact hop
  | registerKind nid kind =>
    rw [Identities.after]
    split
    · next h =>
      obtain ⟨ho, hu, -⟩ := registerKind_keeps h
      exact .kept ho hu
    · exact .refl ids
  | restore nid uuids kind => exact (restored ids nid uuids kind).rebound
  | reset => exact hop.elim

/-- An identifier stays where it is. -/
theorem Rebound.nidOf? (h : ids.Rebound ids') (hu : ids.nidOf? u = some n) :
    ids'.nidOf? u = some n := by
  cases h with
  | kept ho _ => rwa [Identities.nidOf?, ho]
  | bound nid uuids hnew _ ho _ =>
    have hnot : u ∉ uuids := fun hm => by
      rw [hnew u hm] at hu
      cases hu
    have hbound : (ids.bind nid uuids).nidOf? u = some n := by
      rw [get?_owners_bind, if_neg hnot, hu]
    rwa [Identities.nidOf?, ho]

/-! ## Two maps -/

/-- An identifier belongs to the number under which it is listed, and is listed under the
    number to which it belongs. -/
def Matched (ids : Identities) : Prop :=
  ∀ u n, ids.nidOf? u = some n ↔ ∃ held, ids.uuidsOf n = .ok held ∧ u ∈ held

theorem matched_empty : empty.Matched := by
  intro u n
  simp [nidOf?, uuidsOf, empty]

theorem Matched.of_eq (hm : ids.Matched) (ho : ids'.owners = ids.owners)
    (hu : ids'.uuids = ids.uuids) : ids'.Matched := by
  intro u n
  rw [nidOf?, uuidsOf, ho, hu]
  exact hm u n

theorem Matched.contains (hm : ids.Matched) (h : ids.nidOf? u = some n) :
    ids.contains n = true := by
  obtain ⟨held, hheld, -⟩ := (hm u n).1 h
  rw [Identities.contains, Table.contains, uuidsOf_eq_ok_iff.1 hheld]
  rfl

/-- New identifiers may be bound to a number that is not in use. -/
theorem Matched.bind (hm : ids.Matched) (hnew : ∀ u ∈ uuids, ids.nidOf? u = none)
    (hfree : ids.contains nid = false) : (ids.bind nid uuids).Matched := by
  intro u n
  rw [get?_owners_bind]
  simp only [uuidsOf_eq_ok_iff, get?_uuids_bind]
  by_cases hu : u ∈ uuids
  · rw [if_pos hu]
    by_cases hn : nid = n
    · simp [hn, hu]
    · -- an identifier that was listed elsewhere would have been known
      rw [if_neg hn]
      refine iff_of_false (fun h => hn (Option.some.inj h)) ?_
      rintro ⟨held, hheld, hmem⟩
      have hknown := (hm u n).2 ⟨held, uuidsOf_eq_ok_iff.2 hheld, hmem⟩
      rw [hnew u hu] at hknown
      cases hknown
  · rw [if_neg hu]
    by_cases hn : nid = n
    · -- an identifier that belongs to the number would have been listed under it
      subst hn
      refine iff_of_false (fun h => ?_) (by simp [hu])
      rw [hm.contains h] at hfree
      cases hfree
    · simpa only [if_neg hn, uuidsOf_eq_ok_iff] using hm u n

theorem Rebound.matched (h : ids.Rebound ids') (hm : ids.Matched)
    (hfree : ids.contains ids.next = false) : ids'.Matched := by
  cases h with
  | kept ho hu => exact hm.of_eq ho hu
  | bound nid uuids hnew hroom ho hu =>
    refine (hm.bind hnew ?_).of_eq ho hu
    rcases hroom with rfl | hfree'
    · exact hfree
    · exact hfree'

/-! ## Runs -/

/-- A number is handed out only for an identifier that is new. -/
def Operation.Fresh (ids : Identities) : Operation → Prop
  | .allocate fresh => ids.nidOf? fresh = none
  | _ => True

instance (ids : Identities) : (op : Operation) → Decidable (op.Fresh ids)
  | .allocate fresh => inferInstanceAs (Decidable (ids.nidOf? fresh = none))
  | .nidFor _ | .registerKind .. | .restore .. | .reset => .isTrue trivial

theorem Operation.Fresh.regular (h : op.Fresh ids) (hop : op ≠ .reset) : op.Regular ids := by
  cases op with
  | allocate fresh => exact h
  | reset => exact absurd rfl hop
  | _ => trivial

/-- The largest number is not in use at any moment of a run, and numbers are handed out
    for new identifiers only. -/
def Orderly : Identities → List Operation → Prop
  | ids, [] => ids.contains .last = false
  | ids, op :: ops => ids.contains .last = false ∧ op.Fresh ids ∧ (ids.after op).Orderly ops

instance decidableOrderly : (ids : Identities) → (ops : List Operation) →
    Decidable (ids.Orderly ops)
  | ids, [] => inferInstanceAs (Decidable (ids.contains .last = false))
  | ids, op :: ops =>
    have := decidableOrderly (ids.after op) ops
    inferInstanceAs <| Decidable <|
      ids.contains .last = false ∧ op.Fresh ids ∧ (ids.after op).Orderly ops

theorem Orderly.last_free (h : ids.Orderly ops) : ids.contains .last = false := by
  cases ops with
  | nil => exact h
  | cons op ops => exact h.1

theorem orderly_append {before after : List Operation} : ids.Orderly (before ++ after) →
    ids.Orderly before ∧ (ids.run before).Orderly after := by
  induction before generalizing ids with
  | nil => exact fun h => ⟨h.last_free, h⟩
  | cons op before ih =>
    intro ⟨hlast, hfresh, hrest⟩
    obtain ⟨hbefore, hafter⟩ := ih hrest
    exact ⟨⟨hlast, hfresh, hbefore⟩, hafter⟩

/-- What is kept by the requests of an orderly run. -/
structure Intact (ids : Identities) : Prop where
  matched : ids.Matched
  ahead : ids.Ahead
  kindsKnown : ids.KindsKnown

theorem intact_empty : empty.Intact :=
  ⟨matched_empty, ahead_empty, kindsKnown_empty⟩

theorem Intact.after (hi : ids.Intact) (hlast : ids.contains .last = false) (hop : op.Fresh ids) :
    (ids.after op).Intact := by
  by_cases hreset : op = .reset
  · subst hreset
    exact intact_empty
  · exact {
      matched := (rebound_after (hop.regular hreset)).matched hi.matched (hi.ahead.next_free hlast)
      ahead := (renumbered_after hreset ids).ahead hi.ahead
      kindsKnown := (growsTo_after hreset ids).kindsKnown hi.kindsKnown }

theorem Intact.run (hi : ids.Intact) (h : ids.Orderly ops) : (ids.run ops).Intact := by
  induction ops generalizing ids with
  | nil => exact hi
  | cons op ops ih => exact ih (hi.after h.1 h.2.1) h.2.2

/-- The component of an identifier stays, as long as nothing is reset. -/
theorem Orderly.nidOf?_run (h : ids.Orderly ops) (hreset : .reset ∉ ops)
    (hu : ids.nidOf? u = some n) : (ids.run ops).nidOf? u = some n := by
  induction ops generalizing ids with
  | nil => exact hu
  | cons op ops ih =>
    rw [List.mem_cons, not_or] at hreset
    have hop : op.Regular ids := h.2.1.regular (Ne.symm hreset.1)
    exact ih h.2.2 hreset.2 ((rebound_after hop).nidOf? hu)

/-! ## Sound identities -/

/-- Some of the identifiers in a list are those of a component. -/
def Meets (ids : Identities) (uuids : List Uuid) (n : Nid) : Prop :=
  ∃ held, ids.uuidsOf n = .ok held ∧ ∃ u ∈ uuids, u ∈ held

theorem Matched.meets_iff (hm : ids.Matched) :
    ids.Meets uuids n ↔ ∃ u ∈ uuids, ids.nidOf? u = some n := by
  constructor
  · rintro ⟨held, hheld, u, hu, hmem⟩
    exact ⟨u, hu, (hm u n).2 ⟨held, hheld, hmem⟩⟩
  · rintro ⟨u, hu, hn⟩
    obtain ⟨held, hheld, hmem⟩ := (hm u n).1 hn
    exact ⟨held, hheld, u, hu, hmem⟩

/-- What identities hold to at a moment. -/
structure Sound (ids : Identities) : Prop where
  /-- An identifier belongs to a component exactly if it is one of its identifiers. -/
  owner_iff : ∀ u n, ids.nidOf? u = some n ↔ ∃ held, ids.uuidsOf n = .ok held ∧ u ∈ held
  /-- No two components have an identifier in common. -/
  owner_unique : ∀ n m held held' u, ids.uuidsOf n = .ok held → ids.uuidsOf m = .ok held' →
    u ∈ held → u ∈ held' → n = m
  /-- The next number is greater than all numbers in use. -/
  below_next : ∀ n, ids.contains n = true → n < ids.next
  /-- A number is refused for identifiers just when they are those of two components. -/
  nidFor_refused_iff : ∀ uuids, uuids ≠ [] →
    ((∃ e, ids.nidFor uuids = .error e) ↔ ∃ n m, n ≠ m ∧ ids.Meets uuids n ∧ ids.Meets uuids m)
  /-- Otherwise their component is found, which changes nothing, or they are given a number
      that was not in use. -/
  nidFor_answered : ∀ uuids nid ids', ids.nidFor uuids = .ok (nid, ids') →
    (ids.Meets uuids nid ∧ ids' = ids) ∨
      ((∀ n, ¬ ids.Meets uuids n) ∧ ids.contains nid = false ∧ nid = ids.next ∧
        ids' = ids.bindNext (distinct uuids))
  /-- A mapping that is refused is without effect. -/
  restore_refused : ∀ nid uuids kind e, (ids.restore nid uuids kind).1 = .error e →
    (ids.restore nid uuids kind).2 = ids

theorem nidFor_eq_error_iff (hne : uuids ≠ []) {e : Error} :
    ids.nidFor uuids = .error e ↔ ids.owner? uuids = .error e := by
  have hempty : ¬ uuids.isEmpty = true := fun h => hne (List.isEmpty_iff.1 h)
  rw [nidFor, if_neg hempty]
  cases ids.owner? uuids with
  | error e' => simp
  | ok found => cases found <;> simp

/-- A counter that is ahead of a number need not be moved past it. -/
theorem movePast_eq_self (h : n < ids.next) : ids.movePast n = ids := by
  rw [movePast, Nid.max_eq_left_of_le (Nid.nextSaturating_le h)]

theorem Intact.restore_refused (hi : ids.Intact) (hlast : ids.contains .last = false)
    {e : Error} (h : ids.Restored nid uuids kind (.error e) ids') : ids' = ids := by
  cases h with
  | refused hb => rfl
  | @contradicted _ bound hb hk =>
    rcases restoreUuids_eq_ok hb with ⟨ho, rfl⟩ | ⟨-, hfree, rfl⟩
    · obtain ⟨u, -, hu⟩ := owner?_eq_ok_some ho
      exact movePast_eq_self (hi.ahead hlast _ (hi.matched.contains hu))
    · -- of a number that was not in use no kind is known that could be contradicted
      have hbound : ((ids.bind nid uuids).movePast nid).contains nid = true := contains_bind_self
      rw [registerKind_of_unknown hbound (hi.kindsKnown nid hfree)] at hk
      cases hk

theorem Intact.sound (hi : ids.Intact) (hlast : ids.contains .last = false) : ids.Sound where
  owner_iff := hi.matched
  owner_unique n m held held' u hn hm hu hu' := by
    have hown := (hi.matched u n).2 ⟨held, hn, hu⟩
    rw [(hi.matched u m).2 ⟨held', hm, hu'⟩] at hown
    exact (Option.some.inj hown).symm
  below_next := hi.ahead hlast
  nidFor_refused_iff uuids hne := by
    simp only [nidFor_eq_error_iff hne, exists_owner?_eq_error_iff, hi.matched.meets_iff]
    constructor
    · rintro ⟨u, hu, v, hv, n, m, hn, hm, hnm⟩
      exact ⟨n, m, hnm, ⟨u, hu, hn⟩, ⟨v, hv, hm⟩⟩
    · rintro ⟨n, m, hnm, ⟨u, hu, hn⟩, ⟨v, hv, hm⟩⟩
      exact ⟨u, hu, v, hv, n, m, hn, hm, hnm⟩
  nidFor_answered uuids nid ids' h := by
    simp only [hi.matched.meets_iff]
    rcases nidFor_eq_ok h with ⟨ho, rfl⟩ | ⟨-, ho, rfl, rfl⟩
    · exact .inl ⟨owner?_eq_ok_some ho, rfl⟩
    · refine .inr ⟨fun n ⟨u, hu, hn⟩ => ?_, hi.ahead.next_free hlast, rfl, rfl⟩
      rw [owner?_eq_ok_none_iff.1 ho u hu] at hn
      cases hn
  restore_refused nid uuids kind e h := by
    have hr := restored ids nid uuids kind
    rw [h] at hr
    exact hi.restore_refused hlast hr

/-- Identities are sound at every moment of an orderly run, and a component keeps its
    identifiers until the identities are reset. -/
theorem run_sound {before after : List Operation} (h : empty.Orderly (before ++ after)) :
    (empty.run before).Sound ∧
      (.reset ∉ after → ∀ u n, (empty.run before).nidOf? u = some n →
        (empty.run (before ++ after)).nidOf? u = some n) := by
  obtain ⟨hbefore, hafter⟩ := orderly_append h
  refine ⟨(intact_empty.run hbefore).sound hafter.last_free, fun hreset u n hu => ?_⟩
  rw [run_append]
  exact hafter.nidOf?_run hreset hu

theorem run_sound_on_scattered :
    empty.Orderly (scattered.take 3 ++ scattered.drop 3) ∧
      (∃ e, (empty.run (scattered.take 3)).nidFor [.uniform 1, .uniform 2] = .error e) ∧
      ((empty.run (scattered.take 3)).restore ⟨5⟩ [.uniform 1] .semantic).2 =
        empty.run (scattered.take 3) ∧
      (empty.run (scattered.take 3 ++ scattered.drop 3)).nidOf? (.uniform 2) = some ⟨6⟩ := by
  have horderly : empty.Orderly (scattered.take 3 ++ scattered.drop 3) := by decide
  have hreset : .reset ∉ scattered.drop 3 := by simp [scattered]
  obtain ⟨hsound, hkept⟩ := run_sound horderly
  refine ⟨horderly, (hsound.nidFor_refused_iff _ (List.cons_ne_nil _ _)).2 ?_, ?_, ?_⟩
  · exact ⟨⟨5⟩, ⟨6⟩, by decide, ⟨_, rfl, .uniform 1, by decide⟩, ⟨_, rfl, .uniform 2, by decide⟩⟩
  · exact hsound.restore_refused _ _ _ _ rfl
  · exact hkept hreset _ _ rfl

end Identities

end Bitemporal
