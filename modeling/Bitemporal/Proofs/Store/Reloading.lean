import Bitemporal.Proofs.Record.Codec
import Bitemporal.Proofs.Store.Creation

/-!
# What a mapping that is reloaded comes to

When a mapping that was made elsewhere is accepted, all of its identifiers are bound to its
number, or none of them is. If none is known, they all are, and the number must be free. If
some are known, they must belong to the number, and then its component is the one that is
there. The identifiers of that one were settled when it got its number, so the others are not
added to them. In either case the component has the kind of the mapping
(`Identities.Reloaded`). Hence it has the whole mapping just when none or all of the
identifiers were known before (`Identities.Reloaded.hasAll_iff`).

A component that is imported has a history and a kind, and keeps them until the store is
reset (`Store.Installed.run`). So it is found under each identifier that it has then, and
whoever creates a component under it changes nothing (`Store.FoundUnder`). Under an identifier
of its record that was not added, another component is made (`Store.reload_is_not_completed`).
-/

namespace Bitemporal

namespace Identities

variable {ids ids' : Identities} {nid n : Nid} {uuids : List Uuid} {u : Uuid} {kind : Kind}

/-! ## Identities -/

/-- A list of identifiers is owned by a component, and listed under it. -/
structure HasAll (ids : Identities) (nid : Nid) (uuids : List Uuid) : Prop where
  owned : ∀ u ∈ uuids, ids.nidOf? u = some nid
  listed : ∃ held, ids.uuidsOf nid = .ok held ∧ ∀ u ∈ uuids, u ∈ held

/-- A number that was free has identifiers, and nothing is changed for others. -/
structure Binds (ids ids' : Identities) (nid : Nid) (uuids : List Uuid) : Prop where
  free : ids.contains nid = false
  nidOf? : ∀ u, ids'.nidOf? u = if u ∈ uuids then some nid else ids.nidOf? u
  uuidsOf : ∀ n, ids'.uuidsOf n = if n = nid then .ok uuids else ids.uuidsOf n

/-- What becomes of identities that accept a mapping. -/
structure Reloaded (ids ids' : Identities) (nid : Nid) (uuids : List Uuid) (kind : Kind) :
    Prop where
  kind : ids'.kindOf nid = .ok kind
  /-- None of the identifiers was another component's. -/
  unclaimed : ∀ u ∈ uuids, ∀ n, ids.nidOf? u = some n → n = nid
  /-- If none of them was known, all are bound to the number. -/
  bound : (∀ u ∈ uuids, ids.nidOf? u = none) → ids.Binds ids' nid uuids
  /-- If one was known, all identifiers are as they were. -/
  settled : (∃ u ∈ uuids, ids.nidOf? u = some nid) →
    (∀ u, ids'.nidOf? u = ids.nidOf? u) ∧ ∀ n, ids'.uuidsOf n = ids.uuidsOf n

theorem binds_bind (hfree : ids.contains nid = false) :
    ids.Binds (ids.bind nid uuids) nid uuids where
  free := hfree
  nidOf? _ := get?_owners_bind
  uuidsOf n := by
    rw [Identities.uuidsOf, Identities.uuidsOf, get?_uuids_bind]
    by_cases h : nid = n
    · rw [if_pos h, if_pos h.symm]
    · rw [if_neg h, if_neg (Ne.symm h)]

/-- The counter and the kinds do not matter. -/
theorem lookups_of_eq (ho : ids'.owners = ids.owners) (hu : ids'.uuids = ids.uuids) :
    (∀ u, ids'.nidOf? u = ids.nidOf? u) ∧ ∀ n, ids'.uuidsOf n = ids.uuidsOf n := by
  refine ⟨fun u => ?_, fun n => ?_⟩
  · rw [Identities.nidOf?, ho, Identities.nidOf?]
  · rw [Identities.uuidsOf, hu, Identities.uuidsOf]

theorem Restored.reloaded {seq : SequenceNumber} (h : ids.Restored nid uuids kind (.ok seq) ids') :
    ids.Reloaded ids' nid uuids kind := by
  cases h with
  | @installed _ bound _ hb hk =>
    have hkind := kindOf_of_get? ⟨seq, kinds_of_registerKind hk⟩
    obtain ⟨ho, hu, -⟩ := registerKind_keeps hk
    obtain ⟨hnid, huuids⟩ : (∀ u, ids'.nidOf? u = bound.nidOf? u) ∧
      ∀ n, ids'.uuidsOf n = bound.uuidsOf n := lookups_of_eq ho hu
    rcases restoreUuids_eq_ok hb with ⟨howner, rfl⟩ | ⟨hnone, hfree, rfl⟩
    · obtain ⟨⟨u, hu, hn⟩, hone⟩ := owner?_eq_ok_some_iff.1 howner
      exact {
        kind := hkind
        unclaimed := hone
        bound := fun hnew => by
          rw [hnew u hu] at hn
          cases hn
        settled := fun _ => ⟨hnid, huuids⟩ }
    · have hnew := owner?_eq_ok_none_iff.1 hnone
      have hunknown {u : Uuid} {n : Nid} (hu : u ∈ uuids) : ids.nidOf? u ≠ some n := by
        rw [hnew u hu]
        nofun
      have hbinds : ids.Binds (ids.bind nid uuids) nid uuids := binds_bind hfree
      exact {
        kind := hkind
        unclaimed := fun u hu n hn => absurd hn (hunknown hu)
        bound := fun _ => {
          free := hfree
          nidOf? := fun u => (hnid u).trans (hbinds.nidOf? u)
          uuidsOf := fun n => (huuids n).trans (hbinds.uuidsOf n) }
        settled := fun ⟨u, hu, hn⟩ => absurd hn (hunknown hu) }

/-- Identifiers of one component are listed together. -/
theorem Matched.hasAll {v : Uuid} (hm : ids.Matched) (hv : v ∈ uuids)
    (howned : ∀ u ∈ uuids, ids.nidOf? u = some nid) : ids.HasAll nid uuids := by
  obtain ⟨held, hheld, -⟩ := (hm v nid).1 (howned v hv)
  refine ⟨howned, held, hheld, fun u hu => ?_⟩
  obtain ⟨held', hheld', hmem⟩ := (hm u nid).1 (howned u hu)
  obtain rfl : held' = held := Except.ok.inj (hheld'.symm.trans hheld)
  exact hmem

namespace Reloaded

/-- None of the identifiers was known, or one was that of the component. -/
theorem new_or_known (h : ids.Reloaded ids' nid uuids kind) :
    (∀ u ∈ uuids, ids.nidOf? u = none) ∨ ∃ u ∈ uuids, ids.nidOf? u = some nid := by
  refine or_iff_not_imp_left.2 fun hnot => ?_
  push Not at hnot
  obtain ⟨u, hu, hne⟩ := hnot
  obtain ⟨n, hn⟩ := Option.ne_none_iff_exists'.1 hne
  exact ⟨u, hu, h.unclaimed u hu n hn ▸ hn⟩

/-- An identifier of the mapping is the component's just when it was before, or none was known. -/
theorem nidOf?_iff (h : ids.Reloaded ids' nid uuids kind) (hu : u ∈ uuids) :
    ids'.nidOf? u = some nid ↔
      ids.nidOf? u = some nid ∨ ∀ v ∈ uuids, ids.nidOf? v = none := by
  rcases h.new_or_known with hnew | hknown
  · rw [(h.bound hnew).nidOf? u, if_pos hu]
    exact iff_of_true rfl (.inr hnew)
  · obtain ⟨v, hv, hn⟩ := id hknown
    rw [(h.settled hknown).1 u, or_iff_left]
    intro hnew
    rw [hnew v hv] at hn
    cases hn

/-- The component has the whole mapping just when none or all of it was known. -/
theorem hasAll_iff (h : ids.Reloaded ids' nid uuids kind) (hm : ids.Matched) :
    ids'.HasAll nid uuids ↔
      (∀ u ∈ uuids, ids.nidOf? u = none) ∨ ∀ u ∈ uuids, ids.nidOf? u ≠ none := by
  rcases h.new_or_known with hnew | hknown
  · refine iff_of_true ⟨fun u hu => (h.nidOf?_iff hu).2 (.inr hnew), uuids, ?_, fun _ => id⟩
      (.inl hnew)
    rw [(h.bound hnew).uuidsOf nid, if_pos rfl]
  · obtain ⟨v, hv, hn⟩ := id hknown
    obtain ⟨hnid, huuids⟩ := h.settled hknown
    constructor
    · refine fun hall => .inr fun u hu => ?_
      rw [← hnid u, hall.owned u hu]
      exact Option.some_ne_none nid
    · rintro (hnew | hall)
      · rw [hnew v hv] at hn
        cases hn
      · have hm' : ids'.Matched := fun u n => by
          rw [hnid, huuids]
          exact hm u n
        refine hm'.hasAll hv fun u hu => ?_
        obtain ⟨n, hn⟩ := Option.ne_none_iff_exists'.1 (hall u hu)
        rw [hnid, hn, h.unclaimed u hu n hn]

end Reloaded

end Identities

namespace Store

open Bitemporal.Store.Action

variable {s t : Store} {nid n : Nid} {uuids : List Uuid} {shape asked : Shape}
  {identities : Identities} {octets : List UInt8}

/-! ## Stores -/

/-- What is asked for is a component that is there: it has the shape, what the shape refers to
    is known, and none of the identifiers is another component's. -/
structure Suits (s : Store) (uuids : List Uuid) (shape : Shape) (nid : Nid) : Prop where
  held : ∃ h, s.history nid = .ok h ∧ h.shape = shape
  referenced : ∀ r, shape.referenced? = some r → s.identities.contains r = true
  one_owner : ∀ u ∈ uuids, ∀ n, s.identities.nidOf? u = some n → n = nid

/-- Whoever creates a component under the identifiers changes nothing, and the component is
    found just when it is what is asked for. -/
structure FoundUnder (s : Store) (uuids : List Uuid) (nid : Nid) : Prop where
  unchanged : ∀ shape, ((create uuids shape).perform s).2 = s
  answered_iff : ∀ shape n,
    ((create uuids shape).perform s).1 = .ok n ↔ n = nid ∧ s.Suits uuids shape nid

/-- Neither a number nor a kind is given to it anew. -/
theorem Installed.registered (hi : s.Installed nid shape)
    (hbound : ∃ u ∈ uuids, s.identities.nidOf? u = some nid)
    (hr : s.Registered uuids asked n identities) : n = nid ∧ identities = s.identities ∧
      ∀ u ∈ uuids, ∀ m, s.identities.nidOf? u = some m → m = nid := by
  obtain ⟨numbered, seq, hn, hk⟩ := hr.registered
  obtain ⟨rfl, rfl, hone⟩ := Identities.nidFor_eq_ok_of_bound hbound hn
  obtain ⟨-, ⟨-, rfl⟩ | ⟨hnone, -⟩⟩ := Identities.registerKind_eq_ok hk
  · exact ⟨rfl, rfl, hone⟩
  · obtain ⟨seq', hknown⟩ := hi.kind trivial
    rw [hnone] at hknown
    cases hknown

theorem Installed.of_created {answer : Except Error Nid} (hi : s.Installed nid shape)
    (hbound : ∃ u ∈ uuids, s.identities.nidOf? u = some nid)
    (h : s.Created uuids asked answer t) :
    t = s ∧ ∀ n, answer = .ok n → n = nid ∧ s.Suits uuids asked nid := by
  cases h with
  | refused e => exact ⟨rfl, nofun⟩
  | unregistered hn hk =>
    obtain ⟨-, rfl, -⟩ := Identities.nidFor_eq_ok_of_bound hbound hn
    exact ⟨rfl, nofun⟩
  | found hr hget hshape =>
    obtain ⟨rfl, rfl, hone⟩ := hi.registered hbound hr
    refine ⟨rfl, fun n hn => ⟨(Except.ok.inj hn).symm, ?_⟩⟩
    exact {
      held := ⟨_, history_eq_ok_iff.2 hget, hshape⟩
      referenced := (checkShape_eq_ok_iff.1 hr.shape_ok).2
      one_owner := hone }
  | contradicted hr hget hshape =>
    obtain ⟨-, rfl, -⟩ := hi.registered hbound hr
    exact ⟨rfl, nofun⟩
  | made hr hget =>
    obtain ⟨rfl, -, -⟩ := hi.registered hbound hr
    obtain ⟨h, hheld, -⟩ := hi.history
    rw [hget] at hheld
    cases hheld

theorem Installed.foundUnder (hi : s.Installed nid shape)
    (hbound : ∃ u ∈ uuids, s.identities.nidOf? u = some nid) : s.FoundUnder uuids nid where
  unchanged asked := (hi.of_created hbound (created s uuids asked)).1
  answered_iff asked n := by
    refine ⟨(hi.of_created hbound (created s uuids asked)).2 n, ?_⟩
    rintro ⟨rfl, hsuits⟩
    obtain ⟨h, hh, rfl⟩ := hsuits.held
    obtain ⟨h', hget, rfl⟩ := hi.history
    obtain rfl : h' = h := Option.some.inj (hget.symm.trans (history_eq_ok hh))
    have he : s.Established n h'.shape :=
      { hi with
        referenced := hsuits.referenced }
    rw [he.perform_create hbound hsuits.one_owner]

theorem Imported.reloaded (hi : s.Imported octets (.ok nid) t) :
    ∃ r, Record.History.decode octets = .ok r ∧ r.nid = nid ∧
      s.identities.Reloaded t.identities nid r.uuids r.kind := by
  cases hi with
  | @installed r h schema seq identities hd hr hres =>
    have hrestored := Identities.restored s.identities r.nid r.uuids r.kind
    rw [hres] at hrestored
    exact ⟨r, hd, rfl, hrestored.reloaded⟩

theorem Imported.exists_installed (hi : s.Imported octets (.ok nid) t) :
    ∃ shape, t.Installed nid shape := by
  cases hi with
  | @installed r h schema seq identities hd hr hres =>
    have hnew := (recordedHistory_eq_ok hr).2.1
    have hrestored := Identities.restored s.identities r.nid r.uuids r.kind
    rw [hres] at hrestored
    cases hrestored with
    | installed hb hk =>
      obtain ⟨hc, -⟩ := Identities.registerKind_eq_ok hk
      have hknows := (Imported.installed hd hr hres).knows hnew (Table.get?_insert_self ..)
      exact ⟨h.shape, {
        hknows with
        contained := (Identities.LeadsTo.of_registerKind hk).contains hc
        history := ⟨h, Table.get?_insert_self .., rfl⟩ }⟩

/-- A mapping that is accepted is installed as a whole if none of its identifiers was known, and
    otherwise adds none to those of its component, which are as they were. So the component has
    the whole mapping just when none or all of it was known, and in any case the kind. After a
    record is imported, each of its identifiers is the component's just when it was before or none
    was known. From then on, until the store is reset, the component is found under each
    identifier that it has. -/
theorem reload_installs :
    (∀ (ids : Identities) nid uuids kind seq ids', ids.restore nid uuids kind = (.ok seq, ids') →
      ids.Reloaded ids' nid uuids kind ∧
      ∀ ops, Identities.empty.Orderly ops → Identities.empty.run ops = ids →
        (ids'.HasAll nid uuids ↔
          (∀ u ∈ uuids, ids.nidOf? u = none) ∨ ∀ u ∈ uuids, ids.nidOf? u ≠ none)) ∧
    ∀ (s t : Store) octets nid, (importHistory octets).perform s = (.ok nid, t) →
      ∃ r, Record.History.decode octets = .ok r ∧ r.nid = nid ∧
        s.identities.Reloaded t.identities nid r.uuids r.kind ∧
        (∀ u ∈ r.uuids, t.identities.nidOf? u = some nid ↔
          s.identities.nidOf? u = some nid ∨ ∀ v ∈ r.uuids, s.identities.nidOf? v = none) ∧
        ∀ later uuids, .reset ∉ later → t.KeepsIdentities later →
          (∃ u ∈ uuids, t.identities.nidOf? u = some nid) →
          (t.run later).FoundUnder uuids nid := by
  refine ⟨fun ids nid uuids kind seq ids' hrestore => ?_, fun s t octets nid himport => ?_⟩
  · have hrestored := Identities.restored ids nid uuids kind
    rw [hrestore] at hrestored
    refine ⟨hrestored.reloaded, fun ops horderly hrun => hrestored.reloaded.hasAll_iff ?_⟩
    rw [← hrun]
    exact (Identities.intact_empty.run horderly).matched
  · have hi := imported s octets
    rw [himport] at hi
    obtain ⟨r, hd, hnid, hreloaded⟩ := hi.reloaded
    obtain ⟨shape, hinstalled⟩ := hi.exists_installed
    refine ⟨r, hd, hnid, hreloaded, fun u hu => hreloaded.nidOf?_iff hu,
      fun later uuids hreset hkeeps hbound => ?_⟩
    obtain ⟨u, hu, hn⟩ := hbound
    exact (hinstalled.run hkeeps hreset).foundUnder ⟨u, hu, (hkeeps.leadsTo hreset).nidOf? hn⟩

/-- A concept without versions. -/
def conceptRecord (nid : Nid) (uuids : List Uuid) : Record.History :=
  { nid, kind := .concept, uuids, semantic := none, versions := [] }

theorem decode_conceptRecord (huuids : uuids.length < UInt16.size) :
    Record.History.decode (conceptRecord nid uuids).encode = .ok (conceptRecord nid uuids) :=
  Record.History.decode_eq_ok_iff.2
    ⟨⟨huuids, by simp [conceptRecord], nofun, Nat.two_pow_pos 32, nofun⟩, rfl⟩

/-- A mapping with two new identifiers is reloaded, and so is a record, whose component is found
    under the second identifier and one that is not known. -/
theorem reload_installs_two :
    ∃ seq ids' t, Identities.empty.Orderly (Identities.scattered.take 2) ∧
      (Identities.empty.run (Identities.scattered.take 2)).restore ⟨9⟩ [.uniform 7, .uniform 8]
        .semantic = (.ok seq, ids') ∧
      ids'.HasAll ⟨9⟩ [.uniform 7, .uniform 8] ∧
      (importHistory (conceptRecord ⟨9⟩ [.uniform 7, .uniform 8]).encode).perform
        (empty.run founding) = (.ok ⟨9⟩, t) ∧
      t.identities.nidOf? (.uniform 8) = some ⟨9⟩ ∧
      (create [.uniform 6, .uniform 8] .concept).perform (t.run afterFounding) =
        (.ok ⟨9⟩, t.run afterFounding) := by
  obtain ⟨hmap, hstore⟩ := reload_installs
  have horderly : Identities.empty.Orderly (Identities.scattered.take 2) := by decide
  obtain ⟨seq, ids', hrestore⟩ : ∃ seq ids',
      (Identities.empty.run (Identities.scattered.take 2)).restore ⟨9⟩ [.uniform 7, .uniform 8]
        .semantic = (.ok seq, ids') := ⟨_, _, rfl⟩
  obtain ⟨-, hall⟩ := hmap _ _ _ _ _ _ hrestore
  have hd : Record.History.decode (conceptRecord ⟨9⟩ [.uniform 7, .uniform 8]).encode =
      .ok (conceptRecord ⟨9⟩ [.uniform 7, .uniform 8]) := decode_conceptRecord (by decide)
  obtain ⟨t, himport, hbound, hhistory, hknown⟩ : ∃ t,
      (importHistory (conceptRecord ⟨9⟩ [.uniform 7, .uniform 8]).encode).perform
        (empty.run founding) = (.ok ⟨9⟩, t) ∧
      t.identities.nidOf? (.uniform 8) = some ⟨9⟩ ∧
      (∃ h, (t.run afterFounding).history ⟨9⟩ = .ok h ∧ h.shape = .concept) ∧
      [Uuid.uniform 6, .uniform 8].filterMap (t.run afterFounding).identities.nidOf? = [⟨9⟩] := by
    rw [importHistory, hd]
    exact ⟨_, by cbv, by cbv, ⟨_, by cbv, rfl⟩, by cbv⟩
  obtain ⟨-, -, -, -, -, hfound⟩ := hstore _ _ _ _ himport
  have hagain : (t.run afterFounding).FoundUnder [.uniform 6, .uniform 8] ⟨9⟩ :=
    hfound afterFounding _ (by simp [afterFounding])
      (by simp [afterFounding, KeepsIdentities, Operation.AsksRegularly])
      ⟨.uniform 8, by simp, hbound⟩
  have hsuits : (t.run afterFounding).Suits [.uniform 6, .uniform 8] .concept ⟨9⟩ := {
    held := hhistory
    referenced := fun r hr => absurd hr (Option.some_ne_none r).symm
    one_owner := fun u hu n hn => List.mem_singleton.1 (hknown ▸ List.mem_filterMap.2 ⟨u, hu, hn⟩) }
  refine ⟨seq, ids', t, horderly, hrestore, ?_, himport, hbound, ?_⟩
  · exact (hall _ horderly rfl).2 (.inl (by decide))
  · exact Prod.ext ((hagain.answered_iff .concept ⟨9⟩).2 ⟨rfl, hsuits⟩)
      (hagain.unchanged .concept)

/-- If only the first of two identifiers is known, the second is not added when the mapping is
    reloaded, nor when a record of it is imported, and another component is made under it. -/
theorem reload_is_not_completed :
    let ids := Identities.empty.run [.nidFor [.uniform 1]]
    let s := empty.run [.toIdentities (.nidFor [.uniform 1])]
    let octets := (conceptRecord ⟨1⟩ [.uniform 1, .uniform 2]).encode
    (∃ ids', ids.restore ⟨1⟩ [.uniform 1, .uniform 2] .concept = (.ok ⟨0⟩, ids') ∧
      ids'.nidOf? (.uniform 2) = none ∧ ids'.uuidsOf ⟨1⟩ = .ok [.uniform 1]) ∧
    ∃ t, (importHistory octets).perform s = (.ok ⟨1⟩, t) ∧
      t.identities.nidOf? (.uniform 2) = none ∧
      ((create [.uniform 2] .concept).perform t).1 = .ok ⟨2⟩ := by
  intro ids s octets
  have hd : Record.History.decode octets = .ok (conceptRecord ⟨1⟩ [.uniform 1, .uniform 2]) :=
    decode_conceptRecord (by decide)
  rw [importHistory, hd]
  exact ⟨⟨_, rfl, rfl, rfl⟩, _, rfl, rfl, rfl⟩

end Store

end Bitemporal
