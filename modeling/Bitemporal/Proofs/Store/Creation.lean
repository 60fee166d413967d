import Bitemporal.Proofs.Store.Declarations
import Bitemporal.Proofs.Store.Indexing
import Bitemporal.Proofs.Store.Requests

/-!
# What creating a component comes to

A component is created in steps that each may be refused, and some of them are taken after
the identities have been written to. Nevertheless a refused creation leaves the store as it
was, and an accepted one does one of three things: it finds the component and changes
nothing, it gives a history to a component that had identifiers only, or it makes a
component under a number that was free (`Store.Creation`, `creates_or_leaves`). This needs
that the tables of the store belong together (`Store.Coherent`): the next number is free, and
the kind of every component with a history is known.

* `coherent_run`: in a run in which identities are not reset alone, tables belong together as
  long as the largest number is free;
* `Registered.entry`: what is done to the identities then is one of three things too, and
  none of them comes before a refusal;
* `Established.run`: what a creation has established stays until the store is reset, so the
  same creation finds the component from then on.
-/

namespace Bitemporal

namespace Identities

variable {ids : Identities} {nid : Nid} {kind : Kind}

/-- A component takes the next number of a kind, and nothing is changed for others. -/
structure Enlisted (ids ids' : Identities) (nid : Nid) (kind : Kind) : Prop where
  numbered : ids'.kinds.get? nid = some (kind, ⟨UInt32.ofNat (ids.ofKind kind).length⟩)
  others : ∀ n, n ≠ nid → ids'.kinds.get? n = ids.kinds.get? n
  listed : ∀ k, ids'.ofKind k = if k = kind then ids.ofKind k ++ [nid] else ids.ofKind k

theorem enlisted (ids : Identities) (nid : Nid) (kind : Kind) :
    ids.Enlisted (ids.enlist nid kind).2 nid kind where
  numbered := by
    rw [kinds_enlist, Table.get?_insert_self]
    cases kind <;> rfl
  others n hn := by rw [kinds_enlist, Table.get?_insert_of_ne _ _ (Ne.symm hn)]
  listed k := by cases kind <;> cases k <;> rfl

theorem ofKind_bindNext (ids : Identities) (uuids : List Uuid) (kind : Kind) :
    (ids.bindNext uuids).ofKind kind = ids.ofKind kind := by
  cases kind <;> rfl

/-- A component may be given identifiers before. -/
theorem enlisted_bindNext (ids : Identities) (uuids : List Uuid) (nid : Nid) (kind : Kind) :
    ids.Enlisted ((ids.bindNext uuids).enlist nid kind).2 nid kind := by
  have h := enlisted (ids.bindNext uuids) nid kind
  refine ⟨?_, h.others, fun k => ?_⟩
  · rw [h.numbered, ofKind_bindNext]
  · rw [h.listed, ofKind_bindNext]

end Identities

namespace Store

open Bitemporal.Store.Action

variable {s t : Store} {uuids : List Uuid} {shape : Shape} {nid : Nid} {identities : Identities}
  {h : History}

/-! ## What is checked -/

theorem checkShape_eq_ok_iff : s.checkShape shape = .ok () ↔ s.Described shape ∧
    ∀ r, shape.referenced? = some r → s.identities.contains r = true := by
  cases shape with
  | concept => simp [checkShape, Described, Shape.assemblage?, Shape.referenced?]
  | semantic assemblage referenced =>
    simp only [checkShape, bind_eq_ok_iff, Described, Shape.assemblage?, Shape.referenced?,
      Option.some.injEq, forall_eq', schema_eq_ok_iff]
    cases s.identities.contains referenced with
    | true => simp [pure_eq_ok_iff]
    | false => simp [throw_ne_ok]

theorem checkOwner_eq_ok_iff {kind : Kind} : s.checkOwner uuids kind = .ok () ↔
    ∃ found, s.identities.owner? uuids = .ok found ∧
      ∀ n, found = some n → ∀ k, s.identities.kindOf n = .ok k → k = kind := by
  rw [checkOwner, bind_eq_ok_iff]
  refine exists_congr fun found => and_congr_right fun _ => ?_
  cases found with
  | none => simp [pure_eq_ok_iff]
  | some n =>
    simp only [Option.some.injEq, forall_eq']
    cases hk : s.identities.kindOf n with
    | error e => simp [pure_eq_ok_iff]
    | ok k =>
      by_cases hkind : k = kind
      · simp [hkind, pure_eq_ok_iff]
      · simp [hkind, throw_ne_ok]

/-- Once a component has a number and a kind, what is left is its history. -/
theorem perform_create (hr : s.Registered uuids shape nid identities) :
    (create uuids shape).perform s =
      match s.histories.get? nid with
      | some h =>
        if h.shape = shape then (.ok nid, { s with identities })
        else (.error (.invalidOperation (.otherShape nid)), { s with identities })
      | none => (.ok nid, { s with
          identities
          histories := s.histories.insert nid { nid, shape }
          index := s.index.fileShape nid shape }) := by
  obtain ⟨hshape, howner, numbered, seq, hn, hk⟩ := hr
  simp only [create, perform_bind, perform_get, perform_lift, perform_onIdentities, hshape, howner,
    hn, hk]
  cases hg : s.histories.get? nid with
  | none => simp [Except.map]
  | some h => by_cases hs : h.shape = shape <;> simp [hs]

/-! ## Tables that belong together -/

/-- The tables of a store belong together. -/
structure Coherent (s : Store) : Prop where
  consistent : s.identities.Consistent
  kindsKnown : s.identities.KindsKnown
  next_free : s.identities.contains s.identities.next = false
  kinds : ∀ {n h}, s.histories.get? n = some h →
    ∃ seq, s.identities.kinds.get? n = some (h.shape.kind, seq)

theorem coherent_run {ops : List Operation} (hkeeps : empty.KeepsIdentities ops)
    (hlast : (empty.run ops).identities.contains .last = false) : (empty.run ops).Coherent where
  consistent := hkeeps.induction Identities.consistent_empty Identities.consistent_empty
    (·.consistent ·)
  kindsKnown := kindsKnown_of_reachable ⟨ops, rfl⟩
  next_free := by
    have hahead := hkeeps.induction Identities.ahead_empty Identities.ahead_empty (·.ahead ·)
    exact hahead.next_free hlast
  kinds hget := by
    have hknows : (empty.run ops).Knows True _ _ := knows_run (fun _ => hkeeps.ne_reset) hget
    exact hknows.kind trivial

theorem Coherent.kind_of_next (hc : s.Coherent) :
    s.identities.kinds.get? s.identities.next = none :=
  hc.kindsKnown _ hc.next_free

/-- The next number takes any kind. -/
theorem Coherent.registerKind_bindNext (hc : s.Coherent) (uuids : List Uuid) (kind : Kind) :
    (s.identities.bindNext uuids).registerKind s.identities.next kind =
      .ok ((s.identities.bindNext uuids).enlist s.identities.next kind) :=
  Identities.registerKind_of_unknown Identities.contains_bind_self hc.kind_of_next

theorem Coherent.history_of_next (hc : s.Coherent) : s.histories.get? s.identities.next = none := by
  refine Option.eq_none_iff_forall_ne_some.2 fun h hget => ?_
  obtain ⟨seq, hk⟩ := hc.kinds hget
  rw [hc.kind_of_next] at hk
  cases hk

theorem Coherent.contains (hc : s.Coherent) {u : Uuid} (hu : s.identities.nidOf? u = some nid) :
    s.identities.contains nid = true :=
  (hc.consistent.named_of_owner hu).contains

/-- What becomes of the identities when a component gets a number and a kind. -/
inductive Entry (s : Store) (uuids : List Uuid) (kind : Kind) : Nid → Identities → Prop
  | known {nid : Nid} {seq : SequenceNumber} : s.identities.owner? uuids = .ok (some nid) →
      s.identities.kinds.get? nid = some (kind, seq) → Entry s uuids kind nid s.identities
  | enlisted {nid : Nid} : s.identities.owner? uuids = .ok (some nid) →
      s.identities.kinds.get? nid = none →
      Entry s uuids kind nid (s.identities.enlist nid kind).2
  | numbered : uuids ≠ [] → s.identities.owner? uuids = .ok none →
      Entry s uuids kind s.identities.next
        ((s.identities.bindNext (distinct uuids)).enlist s.identities.next kind).2

theorem Registered.entry (hr : s.Registered uuids shape nid identities) (hc : s.Coherent) :
    s.Entry uuids shape.kind nid identities := by
  obtain ⟨numbered, seq, hn, hk⟩ := hr.registered
  rcases Identities.nidFor_eq_ok hn with ⟨ho, rfl⟩ | ⟨hne, ho, rfl, rfl⟩
  · obtain ⟨-, ⟨hkind, rfl⟩ | ⟨hkind, he⟩⟩ := Identities.registerKind_eq_ok hk
    · exact .known ho hkind
    · obtain rfl : (s.identities.enlist nid shape.kind).2 = identities := by rw [he]
      exact .enlisted ho hkind
  · rw [hc.registerKind_bindNext] at hk
    obtain rfl : ((s.identities.bindNext (distinct uuids)).enlist s.identities.next
      shape.kind).2 = identities := congrArg Prod.snd (Except.ok.inj hk)
    exact .numbered hne ho

/-- A component with a history was numbered among its kind before. -/
theorem Registered.eq_of_history (hr : s.Registered uuids shape nid identities) (hc : s.Coherent)
    (hget : s.histories.get? nid = some h) :
    identities = s.identities ∧ s.identities.owner? uuids = .ok (some nid) := by
  obtain ⟨seq, hkind⟩ := hc.kinds hget
  cases hr.entry hc with
  | known ho hk => exact ⟨rfl, ho⟩
  | enlisted ho hk =>
    rw [hk] at hkind
    cases hkind
  | numbered hne ho =>
    rw [hc.kind_of_next] at hkind
    cases hkind

/-! ## What becomes of a store -/

/-- A component of a shape that had no history is given an empty one, and is filed if it is
    a semantic. Nothing else is changed but for the identities. -/
structure Adds (s t : Store) (nid : Nid) (shape : Shape) : Prop where
  absent : s.contains nid = false
  history : t.history nid = .ok { nid, shape }
  others : ∀ n, n ≠ nid → t.history n = s.history n
  components : t.components = s.components ++ [nid]
  filed : ∀ heading n, n ∈ t.index.under heading ↔
    (n = nid ∧ shape.FiledUnder heading) ∨ n ∈ s.index.under heading
  stamps : t.stamps = s.stamps
  lineage : t.lineage = s.lineage
  schemas : t.schemas = s.schemas

/-- A component that had identifiers only is added, under no other identifiers, and is
    numbered among its kind unless it was. -/
structure Completes (s t : Store) (uuids : List Uuid) (shape : Shape) (nid : Nid) : Prop
    extends s.Adds t nid shape where
  bound : ∃ u ∈ uuids, s.identities.nidOf? u = some nid
  owners : t.identities.owners = s.identities.owners
  uuids : t.identities.uuids = s.identities.uuids
  next : t.identities.next = s.identities.next
  kind : s.identities.kindOf nid = .ok shape.kind ∧ t.identities = s.identities ∨
    s.identities.kinds.get? nid = none ∧ s.identities.Enlisted t.identities nid shape.kind

/-- A component is added that nothing was known of. It has the next number, just the
    identifiers that were given, each of them once, and the next number of its kind. -/
structure Makes (s t : Store) (uuids : List Uuid) (shape : Shape) (nid : Nid) : Prop
    extends s.Adds t nid shape where
  unknown : ∀ u ∈ uuids, s.identities.nidOf? u = none
  free : s.identities.contains nid = false
  next : nid = s.identities.next ∧ t.identities.next = nid.next
  bound : t.identities.uuidsOf nid = .ok (distinct uuids)
  uuidsOf : ∀ n, n ≠ nid → t.identities.uuidsOf n = s.identities.uuidsOf n
  nidOf? : ∀ u, t.identities.nidOf? u = if u ∈ uuids then some nid else s.identities.nidOf? u
  kind : s.identities.Enlisted t.identities nid shape.kind

/-- What creating a component can come to if tables belong together. -/
inductive Creation (s : Store) (uuids : List Uuid) (shape : Shape) :
    Except Error Nid → Store → Prop
  | refused (e : Error) : Creation s uuids shape (.error e) s
  | found {nid : Nid} {h : History} : (∃ u ∈ uuids, s.identities.nidOf? u = some nid) →
      s.history nid = .ok h → h.shape = shape → Creation s uuids shape (.ok nid) s
  | completed {nid : Nid} {t : Store} : s.Completes t uuids shape nid →
      Creation s uuids shape (.ok nid) t
  | made {nid : Nid} {t : Store} : s.Makes t uuids shape nid → Creation s uuids shape (.ok nid) t

theorem adds_insert (hget : s.histories.get? nid = none) : s.Adds { s with
      identities
      histories := s.histories.insert nid { nid, shape }
      index := s.index.fileShape nid shape } nid shape where
  absent := contains_eq_false_iff.2 hget
  history := by rw [history, Table.get?_insert_self]
  others n hn := by rw [Store.history, Store.history, Table.get?_insert_of_ne _ _ (Ne.symm hn)]
  components := by
    have hmem : nid ∉ s.histories.keys := by
      rw [← Table.contains_iff_mem_keys, Table.contains, hget]
      exact Bool.false_ne_true
    rw [components, Table.keys_insert, if_neg hmem]
    rfl
  filed _ _ := Index.mem_under_fileShape
  stamps := rfl
  lineage := rfl
  schemas := rfl

theorem creation_of_entry (he : s.Entry uuids shape.kind nid identities) (hc : s.Coherent)
    (hget : s.histories.get? nid = none) : s.Creation uuids shape (.ok nid) { s with
      identities
      histories := s.histories.insert nid { nid, shape }
      index := s.index.fileShape nid shape } := by
  cases he with
  | known ho hk =>
    exact .completed
      { adds_insert hget with
        bound := Identities.owner?_eq_ok_some ho
        owners := rfl
        uuids := rfl
        next := rfl
        kind := .inl ⟨Identities.kindOf_of_get? ⟨_, hk⟩, rfl⟩ }
  | enlisted ho hk =>
    exact .completed
      { adds_insert hget with
        bound := Identities.owner?_eq_ok_some ho
        owners := Identities.owners_enlist ..
        uuids := Identities.uuids_enlist ..
        next := Identities.next_enlist ..
        kind := .inr ⟨hk, Identities.enlisted ..⟩ }
  | numbered hne ho =>
    exact .made
      { adds_insert hget with
        unknown := Identities.owner?_eq_ok_none_iff.1 ho
        free := hc.next_free
        next := ⟨rfl, Identities.next_enlist ..⟩
        bound := by
          rw [Identities.uuidsOf_eq_ok_iff, Identities.uuids_enlist]
          exact Table.get?_insert_self ..
        uuidsOf := fun n hn => by
          rw [Identities.uuidsOf, Identities.uuidsOf, Identities.uuids_enlist,
            Identities.bindNext, Identities.bind, Table.get?_insert_of_ne _ _ (Ne.symm hn)]
        nidOf? := fun u => by
          rw [Identities.nidOf?, Identities.owners_enlist]
          refine Identities.get?_assign.trans ?_
          simp only [mem_distinct]
          rfl
        kind := Identities.enlisted_bindNext .. }

theorem Created.creation {answer : Except Error Nid} (h : s.Created uuids shape answer t)
    (hc : s.Coherent) : s.Creation uuids shape answer t := by
  cases h with
  | refused e => exact .refused e
  | unregistered hn hk =>
    rcases Identities.nidFor_eq_ok hn with ⟨-, rfl⟩ | ⟨-, -, rfl, rfl⟩
    · exact .refused _
    · rw [hc.registerKind_bindNext] at hk
      cases hk
  | found hr hget hshape =>
    obtain ⟨rfl, ho⟩ := hr.eq_of_history hc hget
    exact .found (Identities.owner?_eq_ok_some ho) (history_eq_ok_iff.2 hget) hshape
  | contradicted hr hget hshape =>
    obtain ⟨rfl, -⟩ := hr.eq_of_history hc hget
    exact .refused _
  | made hr hget => exact creation_of_entry (hr.entry hc) hc hget

/-! ## What is asked of a component -/

/-- What is asked of a component to be created: it has identifiers, what its shape refers to
    is there, and its identifiers are known of no component that is another one or is
    otherwise. -/
structure Admits (s : Store) (uuids : List Uuid) (shape : Shape) : Prop where
  named : uuids ≠ []
  described : s.Described shape
  referenced : ∀ r, shape.referenced? = some r → s.identities.contains r = true
  one_owner : ∀ u ∈ uuids, ∀ v ∈ uuids, ∀ n m, s.identities.nidOf? u = some n →
    s.identities.nidOf? v = some m → n = m
  fits : ∀ u ∈ uuids, ∀ n, s.identities.nidOf? u = some n →
    (∀ kind, s.identities.kindOf n = .ok kind → kind = shape.kind) ∧
      ∀ h, s.history n = .ok h → h.shape = shape

theorem Registered.admits (hr : s.Registered uuids shape nid identities)
    (hshape : ∀ h, s.histories.get? nid = some h → h.shape = shape) : s.Admits uuids shape := by
  obtain ⟨hdescribed, hreferenced⟩ := checkShape_eq_ok_iff.1 hr.shape_ok
  obtain ⟨found, ho, hkind⟩ := checkOwner_eq_ok_iff.1 hr.owner_ok
  obtain ⟨numbered, seq, hn, -⟩ := hr.registered
  refine ⟨?_, hdescribed, hreferenced, fun u hu v hv n m hun hvm => ?_, fun u hu n hun => ?_⟩
  · rcases Identities.nidFor_eq_ok hn with ⟨ho, -⟩ | ⟨hne, -⟩
    · obtain ⟨u, hu, -⟩ := Identities.owner?_eq_ok_some ho
      exact List.ne_nil_of_mem hu
    · exact hne
  · by_contra hnm
    obtain ⟨e, he⟩ := Identities.exists_owner?_eq_error_iff.2 ⟨u, hu, v, hv, n, m, hun, hvm, hnm⟩
    rw [ho] at he
    cases he
  · cases found with
    | none =>
      rw [Identities.owner?_eq_ok_none_iff.1 ho u hu] at hun
      cases hun
    | some m =>
      obtain rfl : n = m := (Identities.owner?_eq_ok_some_iff.1 ho).2 u hu n hun
      obtain rfl : nid = n := by
        rw [Identities.nidFor_of_owner ho] at hn
        exact (Prod.mk.inj (Except.ok.inj hn)).1.symm
      exact ⟨hkind nid rfl, fun h hh => hshape h (history_eq_ok hh)⟩

theorem Created.admits (h : s.Created uuids shape (.ok nid) t) : s.Admits uuids shape := by
  cases h with
  | found hr hget hshape =>
    refine hr.admits fun k hk => ?_
    rw [← hshape, Option.some.inj (hk.symm.trans hget)]
  | made hr hget =>
    refine hr.admits fun k hk => ?_
    rw [hget] at hk
    cases hk

theorem Admits.registered (ha : s.Admits uuids shape) (hc : s.Coherent) :
    ∃ nid identities, s.Registered uuids shape nid identities ∧
      ∀ h, s.histories.get? nid = some h → h.shape = shape := by
  have hshape := checkShape_eq_ok_iff.2 ⟨ha.described, ha.referenced⟩
  match ho : s.identities.owner? uuids with
  | .error e =>
    obtain ⟨u, hu, v, hv, n, m, hun, hvm, hnm⟩ := Identities.exists_owner?_eq_error_iff.1 ⟨e, ho⟩
    exact absurd (ha.one_owner u hu v hv n m hun hvm) hnm
  | .ok none =>
    have howner : s.checkOwner uuids shape.kind = .ok () :=
      checkOwner_eq_ok_iff.2 ⟨none, ho, fun n hn => by cases hn⟩
    refine ⟨_, _, ⟨hshape, howner, _, _, Identities.nidFor_of_unknown ha.named ho,
      hc.registerKind_bindNext ..⟩, fun h hget => ?_⟩
    rw [hc.history_of_next] at hget
    cases hget
  | .ok (some n) =>
    obtain ⟨u, hu, hun⟩ := Identities.owner?_eq_ok_some ho
    obtain ⟨hkind, hhistory⟩ := ha.fits u hu n hun
    have howner : s.checkOwner uuids shape.kind = .ok () :=
      checkOwner_eq_ok_iff.2 ⟨some n, ho, fun m hm => Option.some.inj hm ▸ hkind⟩
    have hfits h (hget : s.histories.get? n = some h) := hhistory h (history_eq_ok_iff.2 hget)
    cases hk : s.identities.kinds.get? n with
    | none =>
      exact ⟨_, _, ⟨hshape, howner, _, _, Identities.nidFor_of_owner ho,
        Identities.registerKind_of_unknown (hc.contains hun) hk⟩, hfits⟩
    | some known =>
      obtain ⟨kind, seq⟩ := known
      obtain rfl := hkind kind (Identities.kindOf_of_get? ⟨seq, hk⟩)
      exact ⟨_, _, ⟨hshape, howner, _, _, Identities.nidFor_of_owner ho,
        Identities.registerKind_of_known (hc.contains hun) hk⟩, hfits⟩

/-- A creation is accepted just when the store admits the component. -/
theorem answered_iff_admits (hc : s.Coherent) :
    (∃ nid, ((create uuids shape).perform s).1 = .ok nid) ↔ s.Admits uuids shape := by
  constructor
  · rintro ⟨nid, hok⟩
    have h := created s uuids shape
    rw [hok] at h
    exact h.admits
  · intro ha
    obtain ⟨nid, identities, hr, hfits⟩ := ha.registered hc
    refine ⟨nid, ?_⟩
    rw [perform_create hr]
    cases hget : s.histories.get? nid with
    | none => rfl
    | some h => simp [hfits h hget]

/-! ## Creating again -/

/-- A component has a history of a shape, and all is known of it. -/
structure Installed (s : Store) (nid : Nid) (shape : Shape) : Prop
    extends s.Knows True nid shape where
  contained : s.identities.contains nid = true
  history : ∃ h, s.histories.get? nid = some h ∧ h.shape = shape

/-- It stays so, until the store is reset. -/
theorem Installed.run {ops : List Operation} (hi : s.Installed nid shape)
    (hkeeps : s.KeepsIdentities ops) (hreset : .reset ∉ ops) :
    (s.run ops).Installed nid shape := by
  have hleads := hkeeps.leadsTo hreset
  obtain ⟨h, hget, hshape⟩ := hi.history
  obtain ⟨h', hget', hgrows⟩ := growsTo_run (fun op hop e => hreset (e ▸ hop)) s nid h hget
  exact {
    described := fun a ha => (hi.described a ha).imp fun _ hg => schemas_run hreset hg
    kind := fun _ => (hi.kind trivial).imp fun _ hk => hleads.growsTo.kinds hk
    contained := hleads.contains hi.contained
    history := ⟨h', hget', hgrows.shape.trans hshape⟩ }

/-- What a creation establishes: all is known of the component, and it has a history. -/
structure Established (s : Store) (nid : Nid) (shape : Shape) : Prop
    extends s.Knows True nid shape where
  referenced : ∀ r, shape.referenced? = some r → s.identities.contains r = true
  contained : s.identities.contains nid = true
  history : ∃ h, s.histories.get? nid = some h ∧ h.shape = shape

theorem Created.established (h : s.Created uuids shape (.ok nid) t)
    (hc : s.identities.Consistent) : t.Established nid shape := by
  have hleads := h.leadsTo
  -- what holds of any component that is registered, whether its history is found or made
  have hregistered (hr : s.Registered uuids shape nid t.identities) (hs : t.schemas = s.schemas)
      (hh : ∃ h, t.histories.get? nid = some h ∧ h.shape = shape) : t.Established nid shape := by
    obtain ⟨hdescribed, hreferenced⟩ := checkShape_eq_ok_iff.1 hr.shape_ok
    obtain ⟨hnamed, hkind⟩ := hr.known hc
    exact {
      described := fun a ha => hs ▸ hdescribed a ha
      kind := fun _ => hkind
      referenced := fun r hr => hleads.contains (hreferenced r hr)
      contained := hnamed.contains
      history := hh }
  cases h with
  | found hr hget hshape => exact hregistered hr rfl ⟨_, hget, hshape⟩
  | made hr hget => exact hregistered hr rfl ⟨_, Table.get?_insert_self .., rfl⟩

theorem Established.installed (he : s.Established nid shape) : s.Installed nid shape :=
  { he.toKnows with
    contained := he.contained
    history := he.history }

theorem Established.run {ops : List Operation} (he : s.Established nid shape)
    (hkeeps : s.KeepsIdentities ops) (hreset : .reset ∉ ops) :
    (s.run ops).Established nid shape :=
  { he.installed.run hkeeps hreset with
    referenced := fun r hr => (hkeeps.leadsTo hreset).contains (he.referenced r hr) }

/-- A component that is established is found, and nothing is changed. -/
theorem Established.perform_create (he : s.Established nid shape)
    (hbound : ∃ u ∈ uuids, s.identities.nidOf? u = some nid)
    (hone : ∀ u ∈ uuids, ∀ n, s.identities.nidOf? u = some n → n = nid) :
    (create uuids shape).perform s = (.ok nid, s) := by
  have ho := Identities.owner?_eq_ok_some_iff.2 ⟨hbound, hone⟩
  obtain ⟨seq, hk⟩ := he.kind trivial
  have howner : s.checkOwner uuids shape.kind = .ok () := by
    refine checkOwner_eq_ok_iff.2 ⟨some nid, ho, fun n hn k hkind => ?_⟩
    rw [← Option.some.inj hn, Identities.kindOf_of_get? ⟨seq, hk⟩] at hkind
    exact (Except.ok.inj hkind).symm
  have hr : s.Registered uuids shape nid s.identities :=
    ⟨checkShape_eq_ok_iff.2 ⟨he.described, he.referenced⟩, howner, s.identities, seq,
      Identities.nidFor_of_owner ho, Identities.registerKind_of_known he.contained hk⟩
  obtain ⟨h, hget, hshape⟩ := he.history
  rw [Store.perform_create hr, hget]
  exact if_pos hshape

/-- In a run in which the identities are not reset alone, and as long as the largest number is
    free, a component is created just when the store admits it. If it is refused, nothing is
    changed. If it is not, it is found as it is, or what was missing of it is added. From then on,
    until the store is reset, whoever creates it under one of its identifiers and none of
    another component finds it and changes nothing. -/
theorem creates_or_leaves {ops : List Operation} {answer : Except Error Nid}
    (hkeeps : empty.KeepsIdentities ops)
    (hlast : (empty.run ops).identities.contains .last = false)
    (hperform : (create uuids shape).perform (empty.run ops) = (answer, t)) :
    (empty.run ops).Creation uuids shape answer t ∧
      ((∃ nid, answer = .ok nid) ↔ (empty.run ops).Admits uuids shape) ∧
      ∀ nid later uuids', answer = .ok nid → .reset ∉ later → t.KeepsIdentities later →
        (∃ u ∈ uuids', t.identities.nidOf? u = some nid) →
        (∀ u ∈ uuids', ∀ n, (t.run later).identities.nidOf? u = some n → n = nid) →
        (create uuids' shape).perform (t.run later) = (.ok nid, t.run later) := by
  have hc := coherent_run hkeeps hlast
  have hcreated := created (empty.run ops) uuids shape
  have hanswered : (∃ nid, ((create uuids shape).perform (empty.run ops)).1 = .ok nid) ↔
      (empty.run ops).Admits uuids shape := answered_iff_admits hc
  rw [hperform] at hcreated hanswered
  refine ⟨hcreated.creation hc, hanswered, ?_⟩
  rintro nid later uuids' rfl hreset hlater ⟨u, hu, hn⟩ hone
  have hestablished := (hcreated.established hc.consistent).run hlater hreset
  exact hestablished.perform_create ⟨u, hu, (hlater.leadsTo hreset).nidOf? hn⟩ hone

/-- A concept, and a commit of the draft of 2. -/
def afterFounding : List Operation :=
  [.create [.uniform 4] .concept, .commit ⟨⟨2⟩, 2⟩ ⟨30⟩]

/-- A semantic is made under one identifier given twice, and found again under it and another
    one that is not known. -/
theorem creates_or_leaves_of_founding :
    ∃ t, empty.KeepsIdentities founding ∧
      (empty.run founding).identities.contains .last = false ∧
      (create [.uniform 9, .uniform 9] (.semantic ⟨1⟩ ⟨1⟩)).perform (empty.run founding) =
        (.ok ⟨3⟩, t) ∧
      (empty.run founding).Creation [.uniform 9, .uniform 9] (.semantic ⟨1⟩ ⟨1⟩) (.ok ⟨3⟩) t ∧
      (empty.run founding).Admits [.uniform 9, .uniform 9] (.semantic ⟨1⟩ ⟨1⟩) ∧
      t.identities.uuidsOf ⟨3⟩ = .ok [.uniform 9] ∧
      (create [.uniform 5, .uniform 9] (.semantic ⟨1⟩ ⟨1⟩)).perform (t.run afterFounding) =
        (.ok ⟨3⟩, t.run afterFounding) := by
  have hkeeps : empty.KeepsIdentities founding := by
    simp [founding, KeepsIdentities, Operation.AsksRegularly]
  have hlast : (empty.run founding).identities.contains .last = false := by cbv
  obtain ⟨t, hperform, huuids, hbound, hknown⟩ : ∃ t,
      (create [.uniform 9, .uniform 9] (.semantic ⟨1⟩ ⟨1⟩)).perform (empty.run founding) =
        (.ok ⟨3⟩, t) ∧ t.identities.uuidsOf ⟨3⟩ = .ok [.uniform 9] ∧
      t.identities.nidOf? (.uniform 9) = some ⟨3⟩ ∧
      [Uuid.uniform 5, .uniform 9].filterMap (t.run afterFounding).identities.nidOf? = [⟨3⟩] :=
    ⟨_, by cbv, by cbv, by cbv, by cbv⟩
  obtain ⟨hcreation, hadmits, hagain⟩ := creates_or_leaves hkeeps hlast hperform
  refine ⟨t, hkeeps, hlast, hperform, hcreation, hadmits.1 ⟨⟨3⟩, rfl⟩, huuids, ?_⟩
  refine hagain ⟨3⟩ afterFounding _ rfl (by simp [afterFounding])
    (by simp [afterFounding, KeepsIdentities, Operation.AsksRegularly])
    ⟨.uniform 9, by simp, hbound⟩ fun u hu n hn => ?_
  exact List.mem_singleton.1 (hknown ▸ List.mem_filterMap.2 ⟨u, hu, hn⟩)

/-- Two concepts, of which the first is an assemblage. The identities are forgotten, and the
    first concept is created again. -/
def forgetful : List Operation :=
  [.create [.uniform 1] .concept, .create [.uniform 2] .concept, .defineAssemblage ⟨1⟩ ⟨#[]⟩,
    .toIdentities .reset, .create [.uniform 1] .concept]

/-- An identifier that was given for a component that was found is not bound to it: under that
    one alone, another component is made. And if the identities were reset alone, a creation
    may be refused for the history of a component that had the number before, when the number
    has been handed out already. -/
theorem creation_is_bounded :
    ((create [.uniform 1, .uniform 2] .concept).perform
        (empty.run [.create [.uniform 1] .concept]) =
      (.ok ⟨1⟩, empty.run [.create [.uniform 1] .concept]) ∧
      (empty.run [.create [.uniform 1] .concept]).identities.nidOf? (.uniform 2) = none ∧
      ((create [.uniform 2] .concept).perform (empty.run [.create [.uniform 1] .concept])).1 =
        .ok ⟨2⟩) ∧
    (empty.run forgetful).identities.contains .last = false ∧
      ((create [.uniform 3] (.semantic ⟨1⟩ ⟨1⟩)).perform (empty.run forgetful)).1 =
        .error (.invalidOperation (.otherShape ⟨2⟩)) ∧
      ((create [.uniform 3] (.semantic ⟨1⟩ ⟨1⟩)).perform (empty.run forgetful)).2 ≠
        empty.run forgetful := by
  refine ⟨⟨by cbv, by cbv, by cbv⟩, by cbv, by cbv, fun h => ?_⟩
  have hnext := congrArg (fun t : Store => t.identities.next) h
  have hbefore : (empty.run forgetful).identities.next = ⟨2⟩ := by cbv
  have hafter : ((create [.uniform 3] (.semantic ⟨1⟩ ⟨1⟩)).perform
      (empty.run forgetful)).2.identities.next = ⟨3⟩ := by cbv
  rw [hbefore, hafter] at hnext
  cases hnext

end Store

end Bitemporal
