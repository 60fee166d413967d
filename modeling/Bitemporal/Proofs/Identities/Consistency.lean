import Bitemporal.Proofs.Identities.Requests
import Bitemporal.Proofs.Store.Operation

/-!
# Consistent identities

The two maps of identities, from identifiers to numbers and back, are filled together.
They are *consistent* if an identifier that is listed under a number belongs to it, and
if a number to which an identifier belongs has identifiers (`Identities.Consistent`).
More cannot be said: a number that is handed out again leaves the identifiers that it
had behind, which still belong to it.

* `GrowsTo`: but for a reset, a component that has identifiers goes on having some, and
  the kinds stay;
* `Consistent.after`: identities stay consistent, unless they are reset or a number is
  handed out for an identifier that is known.
-/

namespace Bitemporal.Identities

variable {ids ids' ids'' : Identities} {nid n : Nid} {uuids : List Uuid} {kind : Kind}

/-! ## What stays -/

/-- A component has identifiers. -/
def Named (ids : Identities) (n : Nid) : Prop :=
  ∃ uuids, ids.uuids.get? n = some uuids ∧ uuids ≠ []

/-- Kinds are known of numbers in use only. -/
def KindsKnown (ids : Identities) : Prop :=
  ∀ n, ids.contains n = false → ids.kinds.get? n = none

theorem kindsKnown_empty : empty.KindsKnown :=
  fun _ _ => rfl

/-- What is kept when identities grow. -/
structure GrowsTo (ids ids' : Identities) : Prop where
  named : ∀ {n}, ids.Named n → ids'.Named n
  kinds : ∀ {n k}, ids.kinds.get? n = some k → ids'.kinds.get? n = some k
  kindsKnown : ids.KindsKnown → ids'.KindsKnown

theorem GrowsTo.refl (ids : Identities) : ids.GrowsTo ids :=
  ⟨id, id, id⟩

theorem GrowsTo.trans (h : ids.GrowsTo ids') (h' : ids'.GrowsTo ids'') : ids.GrowsTo ids'' :=
  ⟨fun hn => h'.named (h.named hn), fun hk => h'.kinds (h.kinds hk),
    fun hk => h'.kindsKnown (h.kindsKnown hk)⟩

/-- The counter does not matter. -/
theorem growsTo_next (ids : Identities) (next : Nid) : ids.GrowsTo { ids with next } :=
  ⟨id, id, id⟩

theorem Named.contains (h : ids.Named n) : ids.contains n = true := by
  obtain ⟨uuids, hu, -⟩ := h
  rw [Identities.contains, Table.contains, hu]
  rfl

theorem growsTo_bind (hroom : uuids ≠ [] ∨ ids.contains nid = false) :
    ids.GrowsTo (ids.bind nid uuids) := by
  refine ⟨fun {n} hn => ?_, id, fun hk n hn => hk n ?_⟩
  · obtain ⟨held, hu, hne⟩ := id hn
    by_cases h : nid = n
    · subst h
      refine ⟨uuids, by rw [get?_uuids_bind, if_pos rfl], hroom.resolve_right fun hc => ?_⟩
      rw [hn.contains] at hc
      cases hc
    · exact ⟨held, by rw [get?_uuids_bind, if_neg h, hu], hne⟩
  · rw [contains_eq_false_iff, get?_uuids_bind] at hn
    split at hn
    · cases hn
    · exact contains_eq_false_iff.2 hn

theorem growsTo_enlist (hc : ids.contains nid = true) (hnone : ids.kinds.get? nid = none) :
    ids.GrowsTo (ids.enlist nid kind).2 := by
  refine ⟨fun hn => ?_, fun {n k} hk => ?_, fun hk n hn => ?_⟩
  · rwa [Named, uuids_enlist]
  · rw [kinds_enlist, Table.get?_insert_of_ne _ _ fun e => ?_, hk]
    rw [← e, hnone] at hk
    cases hk
  · rw [contains, uuids_enlist] at hn
    rw [kinds_enlist, Table.get?_insert_of_ne _ _ fun e => ?_]
    · exact hk n hn
    · rw [← e] at hn
      rw [contains, hn] at hc
      cases hc

theorem growsTo_nidFor (h : ids.nidFor uuids = .ok (nid, ids')) : ids.GrowsTo ids' := by
  rcases nidFor_eq_ok h with ⟨-, rfl⟩ | ⟨hne, -, -, rfl⟩
  · exact .refl ids'
  · obtain ⟨u, hu⟩ := List.exists_mem_of_ne_nil _ hne
    exact (growsTo_bind (.inl (List.ne_nil_of_mem (mem_distinct.2 hu)))).trans (growsTo_next ..)

theorem growsTo_registerKind {seq : SequenceNumber}
    (h : ids.registerKind nid kind = .ok (seq, ids')) : ids.GrowsTo ids' := by
  obtain ⟨hc, ⟨-, rfl⟩ | ⟨hk, he⟩⟩ := registerKind_eq_ok h
  · exact .refl ids'
  · have hg : ids.GrowsTo (ids.enlist nid kind).2 := growsTo_enlist hc hk
    rwa [he] at hg

theorem growsTo_restoreUuids (h : ids.restoreUuids nid uuids = .ok ids') : ids.GrowsTo ids' := by
  rcases restoreUuids_eq_ok h with ⟨-, rfl⟩ | ⟨-, hc, rfl⟩
  · exact .refl ids'
  · exact growsTo_bind (.inr hc)

theorem Restored.growsTo {answer : Except Error SequenceNumber}
    (h : ids.Restored nid uuids kind answer ids') : ids.GrowsTo ids' := by
  cases h with
  | refused hb => exact .refl ids
  | contradicted hb hk => exact (growsTo_restoreUuids hb).trans (growsTo_next ..)
  | @installed _ bound _ hb hk =>
    have hmoved : bound.GrowsTo (bound.movePast nid) := growsTo_next ..
    exact ((growsTo_restoreUuids hb).trans hmoved).trans (growsTo_registerKind hk)

theorem growsTo_after {op : Operation} (hop : op ≠ .reset) (ids : Identities) :
    ids.GrowsTo (ids.after op) := by
  cases op with
  | nidFor uuids =>
    rw [after]
    split
    · next h => exact growsTo_nidFor h
    · exact .refl ids
  | allocate fresh =>
    exact (growsTo_bind (.inl (List.cons_ne_nil fresh []))).trans (growsTo_next ..)
  | registerKind nid kind =>
    rw [after]
    split
    · next h => exact growsTo_registerKind h
    · exact .refl ids
  | restore nid uuids kind => exact (restored ids nid uuids kind).growsTo
  | reset => exact absurd rfl hop

/-! ## Consistency -/

/-- The two maps of identities fit together. -/
structure Consistent (ids : Identities) : Prop where
  owner_of_mem : ∀ {n uuids u}, ids.uuids.get? n = some uuids → u ∈ uuids → ids.nidOf? u = some n
  named_of_owner : ∀ {u n}, ids.nidOf? u = some n → ids.Named n

theorem consistent_empty : empty.Consistent :=
  ⟨fun h => absurd h (by simp [empty]), fun h => absurd h (by simp [nidOf?, empty])⟩

theorem Consistent.of_eq (hc : ids.Consistent) (ho : ids'.owners = ids.owners)
    (hu : ids'.uuids = ids.uuids) : ids'.Consistent := by
  refine ⟨fun hn hm => ?_, fun h => ?_⟩
  · rw [hu] at hn
    rw [nidOf?, ho]
    exact hc.owner_of_mem hn hm
  · rw [nidOf?, ho] at h
    rw [Named, hu]
    exact hc.named_of_owner h

/-- New identifiers may be bound to a number, provided that it does not lose the ones
    that it had for none. -/
theorem Consistent.bind (hc : ids.Consistent) (hnew : ∀ u ∈ uuids, ids.nidOf? u = none)
    (hroom : uuids ≠ [] ∨ ids.contains nid = false) : (ids.bind nid uuids).Consistent := by
  refine ⟨fun {n held u} hn hu => ?_, fun {u n} h => ?_⟩
  · rw [get?_uuids_bind] at hn
    rw [get?_owners_bind]
    split at hn
    · next heq =>
      obtain rfl := Option.some.inj hn
      rw [if_pos hu, heq]
    · have ho := hc.owner_of_mem hn hu
      rw [if_neg fun hm => ?_, ho]
      rw [hnew u hm] at ho
      cases ho
  · rw [get?_owners_bind] at h
    split at h
    · next hu =>
      obtain rfl := Option.some.inj h
      exact ⟨uuids, by rw [get?_uuids_bind, if_pos rfl], List.ne_nil_of_mem hu⟩
    · exact (growsTo_bind hroom).named (hc.named_of_owner h)

theorem Consistent.registerKind {seq : SequenceNumber} (hc : ids.Consistent)
    (h : ids.registerKind nid kind = .ok (seq, ids')) : ids'.Consistent := by
  obtain ⟨ho, hu, -⟩ := registerKind_keeps h
  exact hc.of_eq ho hu

theorem Consistent.nidFor (hc : ids.Consistent) (h : ids.nidFor uuids = .ok (nid, ids')) :
    ids'.Consistent := by
  rcases nidFor_eq_ok h with ⟨-, rfl⟩ | ⟨hne, ho, -, rfl⟩
  · exact hc
  · obtain ⟨u, hu⟩ := List.exists_mem_of_ne_nil _ hne
    have hnew : ∀ u ∈ distinct uuids, ids.nidOf? u = none :=
      fun u hu => owner?_eq_ok_none_iff.1 ho u (mem_distinct.1 hu)
    exact (hc.bind hnew (.inl (List.ne_nil_of_mem (mem_distinct.2 hu)))).of_eq rfl rfl

theorem Consistent.restoreUuids (hc : ids.Consistent) (h : ids.restoreUuids nid uuids = .ok ids') :
    ids'.Consistent := by
  rcases restoreUuids_eq_ok h with ⟨-, rfl⟩ | ⟨ho, hfree, rfl⟩
  · exact hc
  · exact hc.bind (owner?_eq_ok_none_iff.1 ho) (.inr hfree)

theorem Restored.consistent {answer : Except Error SequenceNumber}
    (h : ids.Restored nid uuids kind answer ids') (hc : ids.Consistent) : ids'.Consistent := by
  cases h with
  | refused hb => exact hc
  | contradicted hb hk => exact (hc.restoreUuids hb).of_eq rfl rfl
  | @installed _ bound _ hb hk =>
    have hmoved : (bound.movePast nid).Consistent := (hc.restoreUuids hb).of_eq rfl rfl
    exact hmoved.registerKind hk

/-- A number is handed out for identifiers that are new only, and nothing is reset. -/
def Operation.Regular (ids : Identities) : Operation → Prop
  | .allocate fresh => ids.nidOf? fresh = none
  | .reset => False
  | _ => True

theorem Consistent.after {op : Operation} (hc : ids.Consistent) (hop : op.Regular ids) :
    (ids.after op).Consistent := by
  cases op with
  | nidFor uuids =>
    rw [Identities.after]
    split
    · next h => exact hc.nidFor h
    · exact hc
  | allocate fresh =>
    have hnew : ∀ u ∈ [fresh], ids.nidOf? u = none := by
      intro u hu
      rw [List.mem_singleton.1 hu]
      exact hop
    exact (hc.bind hnew (.inl (List.cons_ne_nil _ _))).of_eq rfl rfl
  | registerKind nid kind =>
    rw [Identities.after]
    split
    · next h => exact hc.registerKind h
    · exact hc
  | restore nid uuids kind => exact (restored ids nid uuids kind).consistent hc
  | reset => exact hop.elim

/-! ## Components that are known -/

theorem named_bind (h : uuids ≠ []) : (ids.bind nid uuids).Named nid :=
  ⟨uuids, by rw [get?_uuids_bind, if_pos rfl], h⟩

/-- The component that identifiers are given, or have, has identifiers. -/
theorem Consistent.named_of_nidFor (hc : ids.Consistent)
    (h : ids.nidFor uuids = .ok (nid, ids')) : ids'.Named nid := by
  rcases nidFor_eq_ok h with ⟨ho, rfl⟩ | ⟨hne, -, rfl, rfl⟩
  · obtain ⟨u, -, hu⟩ := owner?_eq_ok_some ho
    exact hc.named_of_owner hu
  · obtain ⟨u, hu⟩ := List.exists_mem_of_ne_nil _ hne
    exact named_bind (List.ne_nil_of_mem (mem_distinct.2 hu))

theorem Consistent.named_of_restoreUuids (hc : ids.Consistent) (hne : uuids ≠ [])
    (h : ids.restoreUuids nid uuids = .ok ids') : ids'.Named nid := by
  rcases restoreUuids_eq_ok h with ⟨ho, rfl⟩ | ⟨-, -, rfl⟩
  · obtain ⟨u, -, hu⟩ := owner?_eq_ok_some ho
    exact hc.named_of_owner hu
  · exact named_bind hne

/-- The kind of a component is known once it is registered. -/
theorem kinds_of_registerKind {seq : SequenceNumber}
    (h : ids.registerKind nid kind = .ok (seq, ids')) : ids'.kinds.get? nid = some (kind, seq) := by
  obtain ⟨-, ⟨hk, rfl⟩ | ⟨-, he⟩⟩ := registerKind_eq_ok h
  · exact hk
  · have hkinds := kinds_enlist ids nid kind
    rw [he] at hkinds
    rw [hkinds, Table.get?_insert_self]

/-- A component that was restored has identifiers, if there were any, and its kind. -/
theorem Restored.known {seq : SequenceNumber} (hc : ids.Consistent) (hne : uuids ≠ [])
    (h : ids.Restored nid uuids kind (.ok seq) ids') :
    ids'.Named nid ∧ ids'.kinds.get? nid = some (kind, seq) := by
  cases h with
  | installed hb hk =>
    have hnamed := hc.named_of_restoreUuids hne hb
    exact ⟨(growsTo_registerKind hk).named hnamed, kinds_of_registerKind hk⟩

/-! ## Growth that is consistent -/

/-- Identities grow, and stay consistent. -/
structure Upgrades (ids ids' : Identities) : Prop extends ids.GrowsTo ids' where
  consistent : ids.Consistent → ids'.Consistent

theorem Upgrades.refl (ids : Identities) : ids.Upgrades ids :=
  ⟨.refl ids, id⟩

theorem Upgrades.trans (h : ids.Upgrades ids') (h' : ids'.Upgrades ids'') : ids.Upgrades ids'' :=
  ⟨h.toGrowsTo.trans h'.toGrowsTo, fun hc => h'.consistent (h.consistent hc)⟩

theorem upgrades_nidFor (h : ids.nidFor uuids = .ok (nid, ids')) : ids.Upgrades ids' :=
  ⟨growsTo_nidFor h, fun hc => hc.nidFor h⟩

theorem upgrades_registerKind {seq : SequenceNumber}
    (h : ids.registerKind nid kind = .ok (seq, ids')) : ids.Upgrades ids' :=
  ⟨growsTo_registerKind h, fun hc => hc.registerKind h⟩

theorem Restored.upgrades {answer : Except Error SequenceNumber}
    (h : ids.Restored nid uuids kind answer ids') : ids.Upgrades ids' :=
  ⟨h.growsTo, h.consistent⟩

theorem Operation.Regular.upgrades {op : Operation} (hop : op.Regular ids) :
    ids.Upgrades (ids.after op) :=
  ⟨growsTo_after (fun e => by rw [e] at hop; exact hop) ids, fun hc => hc.after hop⟩

end Bitemporal.Identities
