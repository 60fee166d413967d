import Bitemporal.Proofs.Store.Indexing
import Bitemporal.Proofs.Store.Recording

/-!
# Carrying a store over

A store is carried over to an empty one by its stamps and the records of its components,
which are imported in any order (`Store.importAll`). Everything but drafts, paths and
schemas that no component has is found again (`Store.CarriedOver`).

The record of a component of a sound store can be written (`exportHistory_eq_map`) and is
accepted by every store that has the same stamps, does not have the component, and has no schemas
but those of the first store (`recordedHistory_recordWith`). What is there after the
records of some components is kept by one more of them (`Carried`, `Carried.step`): the
identifiers of the component are new, because no two components share one. At the end
nothing is left to say but what the two stores have in common (`Carried.carriedOver`).

Numbers of stamps are 32-bit words, and so is the number of rows in a record of stamps.
A store with more stamps than that has no record of them that could be read, which is why
they are bounded along with the other counts (`Store.Transferable`).
-/

namespace Bitemporal.Store

open Bitemporal.Store.Action

variable {s t : Store} {n : Nid} {h : History}

/-! ## Records of components -/

/-- Whatever is counted in the records of components is few enough to be counted there. -/
structure CountsFit (s : Store) : Prop where
  uuids : ∀ {n uuids}, n ∈ s.components → s.identities.uuidsOf n = .ok uuids →
    uuids.length < UInt16.size
  fields : ∀ {assemblage schema}, s.schema assemblage = .ok schema → schema.arity < UInt16.size
  versions : ∀ {n h}, s.history n = .ok h → h.committed.length < UInt32.size
  payloads : ∀ {n h v}, s.history n = .ok h → v ∈ h.committed →
    v.payload.octets.length < UInt32.size

/-- So it is, and there are enough numbers for the stamps. -/
structure Transferable (s : Store) : Prop extends CountsFit s where
  stamps : s.stamps.size < UInt32.size

theorem CountsFit.recordable (ht : s.CountsFit) (hh : s.history h.nid = .ok h) :
    s.Recordable h where
  uuids hu := ht.uuids (mem_components_iff.2 ⟨h, hh⟩) hu
  fields hschema := by
    obtain ⟨assemblage, -, hg⟩ := Option.bind_eq_some_iff.1 hschema
    exact ht.fields (schema_eq_ok_iff.2 hg)
  versions := ht.versions hh
  payloads _ hv := ht.payloads hh hv

/-! ## Records in another store -/

/-- A record is accepted by a store with the same stamps that does not have the component,
    and has no other schemas. -/
theorem recordedHistory_recordWith {uuids : List Uuid} (hs : s.Supports h)
    (hsize : s.stamps.size < UInt32.size) (hne : uuids ≠ []) (hstamps : t.stamps = s.stamps)
    (hnew : t.histories.get? h.nid = none)
    (hschemas : ∀ a, t.schemas.get? a = none ∨ t.schemas.get? a = s.schemas.get? a) :
    t.recordedHistory (s.recordWith h uuids) = .ok (withoutDrafts h, s.schemaOf? h.shape) := by
  have hcontains : t.contains h.nid = false := by
    rw [Store.contains, Table.contains, hnew]
    rfl
  have hreplay := replay_recordWith hs.committed hs.inOrder (hs.stamps hsize)
  rw [← hstamps] at hreplay
  have huuids : (s.recordWith h uuids).uuids.isEmpty = false := List.isEmpty_eq_false_iff.2 hne
  have hnid : t.contains (s.recordWith h uuids).nid = false := hcontains
  rw [recordedHistory, huuids, hnid]
  show (t.recordedShape (s.recordWith h uuids) >>= _) = _
  rw [(recordedShape_recordWith_iff hs.described).2 ⟨rfl, fun a _ => hschemas a⟩]
  show (replay t.stamps (s.schemaOf? h.shape) { nid := h.nid, shape := h.shape }
    (h.committed.map versionRow) >>= _) = _
  rw [hreplay]
  rfl

/-! ## One record after the other -/

/-- What a store holds into which the records of some components were imported. -/
structure Carried (s : Store) (done : List Nid) (t : Store) : Prop where
  sound : t.Sound
  indexed : t.Indexed
  kindsKnown : t.identities.KindsKnown
  stamps : t.stamps = s.stamps
  components : t.components = done
  histories : ∀ {n h}, n ∈ done → s.histories.get? n = some h →
    t.histories.get? n = some (withoutDrafts h)
  uuids : ∀ {n}, t.identities.uuids.get? n = if n ∈ done then s.identities.uuids.get? n else none
  /-- Identifiers belong to components that have them in the first store. -/
  owners : ∀ {u n}, t.identities.nidOf? u = some n →
    n ∈ done ∧ ∃ uuids, s.identities.uuids.get? n = some uuids ∧ u ∈ uuids
  schemas : ∀ a, t.schemas.get? a = none ∨ t.schemas.get? a = s.schemas.get? a

/-- The identifiers of a component are not known before its record is imported. -/
theorem Carried.owner?_eq_none {done : List Nid} {uuids : List Uuid} (hc : s.Carried done t)
    (hs : s.identities.Consistent) (hu : s.identities.uuids.get? n = some uuids)
    (hnew : n ∉ done) : t.identities.owner? uuids = .ok none := by
  refine Identities.owner?_eq_ok_none_iff.2 fun u hm => ?_
  cases ho : t.identities.nidOf? u with
  | none => rfl
  | some m =>
    obtain ⟨hdone, held, hheld, hmem⟩ := hc.owners ho
    have hm' := hs.owner_of_mem hheld hmem
    rw [hs.owner_of_mem hu hm] at hm'
    exact absurd (Option.some.inj hm' ▸ hdone) hnew

theorem schemasWith_schemaOf? (hschemas : ∀ a,
      t.schemas.get? a = none ∨ t.schemas.get? a = s.schemas.get? a) (shape : Shape) (a : Nid) :
    (t.schemasWith shape (s.schemaOf? shape)).get? a = none ∨
      (t.schemasWith shape (s.schemaOf? shape)).get? a = s.schemas.get? a := by
  unfold schemasWith
  split
  · next assemblage referenced schema hschema =>
    split
    · exact hschemas a
    · rw [Table.get?_insert]
      split
      · next heq =>
        refine .inr ?_
        rw [← heq]
        exact hschema.symm
      · exact hschemas a
  · exact hschemas a

/-- One more record is imported. -/
theorem Carried.step {done : List Nid} (hc : s.Carried done t) (hs : s.Sound)
    (ht : s.Transferable) (hget : s.histories.get? n = some h) (hnid : h.nid = n)
    (hnew : n ∉ done) : ∃ octets t', s.exportHistory n = .ok octets ∧
      (importHistory octets).perform t = (.ok n, t') ∧ s.Carried (done ++ [n]) t' := by
  subst hnid
  have hsupports := hs.supports hget
  obtain ⟨uuids, hu, hne⟩ := hsupports.named
  have huuidsOf : s.identities.uuidsOf h.nid = .ok uuids := Identities.uuidsOf_eq_ok_iff.2 hu
  have hkeys : h.nid ∉ t.histories.keys := by
    rw [show t.histories.keys = done from hc.components]
    exact hnew
  have hnone : t.histories.get? h.nid = none := Table.find?_eq_none_iff.2 hkeys
  have hfree : t.identities.contains h.nid = false := by
    rw [Identities.contains_eq_false_iff, hc.uuids, if_neg hnew]
  -- the record is written, and accepted by the other store
  have hexport := exportHistory_eq_map hsupports.described hget
  rw [huuidsOf] at hexport
  have hd := Record.History.decode_eq_ok_iff.2 ⟨(fits_recordWith_iff hsupports.described huuidsOf).2
    (ht.recordable (history_eq_ok_iff.2 hget)), rfl⟩
  have hr := recordedHistory_recordWith hsupports ht.stamps hne hc.stamps hnone hc.schemas
  have hres : t.identities.restore h.nid uuids h.shape.kind = _ :=
    Identities.restore_of_unknown (hc.owner?_eq_none hs.identities hu hnew) hfree
      (hc.kindsKnown _ hfree)
  have hperform := perform_importHistory hd hr hres
  have himported := imported t (s.recordWith h uuids).encode
  rw [hperform] at himported
  refine ⟨_, _, hexport, hperform, ?_⟩
  -- the tables hold what they held, and what the record says
  refine
    { sound := himported.sound hc.sound
      indexed := hc.indexed.change himported.change
      kindsKnown := himported.tablesGrow.identities.kindsKnown hc.kindsKnown
      stamps := hc.stamps
      components := ?_
      histories := fun {n k} hn hk => ?_
      uuids := fun {n} => ?_
      owners := fun {u n} ho => ?_
      schemas := schemasWith_schemaOf? hc.schemas h.shape }
  · rw [← hc.components]
    exact (Table.keys_insert ..).trans (if_neg hkeys)
  · rcases List.mem_append.1 hn with hn | hn
    · have hne : h.nid ≠ n := fun e => hnew (e ▸ hn)
      exact (Table.get?_insert_of_ne _ _ hne).trans (hc.histories hn hk)
    · obtain rfl := List.mem_singleton.1 hn
      obtain rfl := Option.some.inj (hget.symm.trans hk)
      exact Table.get?_insert_self ..
  · rw [Identities.uuids_enlist]
    refine Identities.get?_uuids_bind.trans ?_
    by_cases hn : h.nid = n
    · subst hn
      rw [if_pos rfl, if_pos (by simp), hu]
    · rw [if_neg hn, hc.uuids]
      simp [Ne.symm hn]
  · rw [Identities.nidOf?, Identities.owners_enlist] at ho
    replace ho := Identities.get?_owners_bind.symm.trans ho
    split at ho
    · next hm =>
      obtain rfl := Option.some.inj ho
      exact ⟨by simp, uuids, hu, hm⟩
    · obtain ⟨hdone, howned⟩ := hc.owners ho
      exact ⟨List.mem_append_left _ hdone, howned⟩

/-- Imports the stamps of a store, and then records of components one after the other. -/
def importAll (stamps : List UInt8) (records : List (List UInt8)) : Action (List Nid) := do
  importStamps stamps
  records.mapM importHistory

/-- The records of components that are left are imported in turn. -/
theorem Carried.steps {done rest : List Nid} (hc : s.Carried done t) (hs : s.Sound)
    (hi : s.Indexed) (ht : s.Transferable) (hknown : ∀ n ∈ rest, n ∈ s.components)
    (hnodup : (done ++ rest).Nodup) : ∃ records t', rest.mapM s.exportHistory = .ok records ∧
      (records.mapM importHistory).perform t = (.ok rest, t') ∧ s.Carried (done ++ rest) t' := by
  induction rest generalizing done t with
  | nil => exact ⟨[], t, rfl, rfl, by rwa [List.append_nil]⟩
  | cons n rest ih =>
    obtain ⟨h, hget⟩ := Option.isSome_iff_exists.1
      (Table.contains_iff_mem_keys.2 (hknown n List.mem_cons_self))
    have hnew : n ∉ done := fun hn =>
      (List.nodup_append.1 hnodup).2.2 n hn n List.mem_cons_self rfl
    obtain ⟨octets, t₁, hexport, hperform, hc₁⟩ := hc.step hs ht hget (hi.nid hget) hnew
    have hnodup' : ((done ++ [n]) ++ rest).Nodup := by rwa [List.append_assoc]
    obtain ⟨records, t', hexports, hperforms, hc'⟩ :=
      ih hc₁ (fun m hm => hknown m (List.mem_cons_of_mem _ hm)) hnodup'
    rw [List.append_assoc] at hc'
    refine ⟨octets :: records, t', ?_, ?_, hc'⟩
    · rw [List.mapM_cons, hexport]
      show (rest.mapM s.exportHistory >>= _) = _
      rw [hexports]
      rfl
    · rw [List.mapM_cons, perform_bind, hperform]
      dsimp only
      rw [perform_bind, hperforms]
      rfl

/-- The stamps of a store are restored in an empty one. -/
theorem perform_importStamps_empty (hs : s.Sound) (hsize : s.stamps.size < UInt32.size) :
    (importStamps s.exportStamps).perform empty = (.ok (), { empty with stamps := s.stamps }) := by
  have hrows : s.stamps.rows.length < UInt32.size := by rwa [StampTable.length_rows]
  rw [importStamps, exportStamps, Record.decodeStamps_eq_ok_iff.2 ⟨hrows, rfl⟩]
  have hrestore : empty.stamps.restore s.stamps.rows = (.ok (), s.stamps) :=
    StampTable.restore_rows hsize hs.stamps hs.coherent
  simp [hrestore]

/-- They are not restored anywhere if there are too many to be counted. -/
theorem importStamps_exportStamps_iff (hs : s.Sound) :
    ((importStamps s.exportStamps).perform empty).1 = .ok () ↔ s.stamps.size < UInt32.size := by
  constructor
  · intro hi
    cases hd : Record.decodeStamps s.exportStamps with
    | error fault => simp [importStamps, hd] at hi
    | ok rows =>
      obtain ⟨-, hcount⟩ := Record.decode_encodeStamps hd
      rwa [StampTable.length_rows] at hcount
  · intro hsize
    rw [perform_importStamps_empty hs hsize]

theorem carried_nil (hs : s.Sound) : s.Carried [] { empty with stamps := s.stamps } where
  sound := ⟨Identities.consistent_empty, hs.stamps, hs.coherent,
    fun hget => absurd hget (by simp [empty])⟩
  indexed := indexed_empty.of_eq rfl rfl
  kindsKnown := Identities.kindsKnown_empty
  stamps := rfl
  components := rfl
  histories hn := absurd hn List.not_mem_nil
  uuids := rfl
  owners ho := absurd ho (by simp [empty, Identities.nidOf?, Identities.empty])
  schemas _ := .inl rfl

/-! ## The store that was carried over -/

/-- What of a store is found again in another one: all components with their identifiers,
    kinds, shapes and committed versions, and no drafts; the schemas of their assemblages;
    and the answers of the indices. What is exported from either is the same. -/
structure CarriedOver (s t : Store) : Prop where
  components : t.components.Perm s.components
  uuids : ∀ n ∈ s.components, ∃ uuids,
    s.identities.uuidsOf n = .ok uuids ∧ t.identities.uuidsOf n = .ok uuids
  histories : ∀ {n h}, s.history n = .ok h → ∃ h', t.history n = .ok h' ∧ h'.nid = n ∧
    h'.shape = h.shape ∧ h'.committed = h.committed ∧ h'.pending = []
  kinds : ∀ {n h}, s.history n = .ok h →
    s.identities.kindOf n = .ok h.shape.kind ∧ t.identities.kindOf n = .ok h.shape.kind
  schemas : ∀ {n h assemblage}, s.history n = .ok h → h.shape.assemblage? = some assemblage →
    ∃ schema, s.schema assemblage = .ok schema ∧ t.schema assemblage = .ok schema
  semanticsOf : ∀ assemblage, t.semanticsOf assemblage = s.semanticsOf assemblage
  semanticsAbout : ∀ assemblage referenced,
    t.semanticsAbout assemblage referenced = s.semanticsAbout assemblage referenced
  semanticsHolding : ∀ value, t.semanticsHolding value = s.semanticsHolding value
  exportStamps : t.exportStamps = s.exportStamps
  exportHistory : ∀ n, t.exportHistory n = s.exportHistory n

theorem pending_withoutDrafts (h : History) : (withoutDrafts h).pending = [] := by
  rw [History.pending, List.filterMap_eq_nil_iff]
  intro slot hslot
  obtain ⟨v, -, rfl⟩ := List.mem_map.1 hslot
  rfl

theorem exportHistory_of_not_mem (hn : n ∉ s.components) :
    s.exportHistory n = .error (.unknownIdentifier n) := by
  have hnone : s.histories.get? n = none := Table.find?_eq_none_iff.2 hn
  have hhistory : s.history n = .error (.unknownIdentifier n) := by rw [Store.history, hnone]
  rw [exportHistory, recordOf, hhistory]
  rfl

namespace Carried

variable {order : List Nid}

theorem history (hc : s.Carried order t) (horder : order.Perm s.components)
    (hh : s.history n = .ok h) : t.history n = .ok (withoutDrafts h) :=
  history_eq_ok_iff.2 (hc.histories (horder.mem_iff.2 (mem_components_iff.2 ⟨h, hh⟩))
    (history_eq_ok hh))

/-- There is no history but those that were imported. -/
theorem of_history {k : History} (hc : s.Carried order t) (horder : order.Perm s.components)
    (hk : t.history n = .ok k) : ∃ h, s.history n = .ok h ∧ k = withoutDrafts h := by
  have hmem : n ∈ order := hc.components ▸ mem_components_iff.2 ⟨k, hk⟩
  obtain ⟨h, hh⟩ := mem_components_iff.1 (horder.mem_iff.1 hmem)
  exact ⟨h, hh, Except.ok.inj (hk.symm.trans (hc.history horder hh))⟩

theorem schema {assemblage : Nid} (hc : s.Carried order t) (horder : order.Perm s.components)
    (hh : s.history n = .ok h) (ha : h.shape.assemblage? = some assemblage) :
    ∃ schema, s.schema assemblage = .ok schema ∧ t.schema assemblage = .ok schema := by
  have hsupports := hc.sound.supports (history_eq_ok (hc.history horder hh))
  obtain ⟨schema, hg⟩ := hsupports.schema ha
  refine ⟨schema, schema_eq_ok_iff.2 ?_, schema_eq_ok_iff.2 hg⟩
  rcases hc.schemas assemblage with hnone | hsame
  · rw [hnone] at hg
    cases hg
  · rw [← hsame, hg]

/-- Drafts are filed nowhere, so the indices answer the same. -/
theorem under_eq (hc : s.Carried order t) (hi : s.Indexed) (horder : order.Perm s.components)
    (heading : Index.Heading) : t.index.under heading = s.index.under heading := by
  refine NidSet.ext_iff_mem.2 fun n => ?_
  rw [hc.indexed.mem_under, hi.mem_under]
  constructor
  · rintro ⟨k, hk, hfiled⟩
    obtain ⟨h, hh, rfl⟩ := hc.of_history horder hk
    exact ⟨h, hh, hfiled⟩
  · rintro ⟨h, hh, hfiled⟩
    exact ⟨withoutDrafts h, hc.history horder hh, hfiled⟩

theorem uuidsOf {uuids : List Uuid} (hc : s.Carried order t) (hmem : n ∈ order)
    (hu : s.identities.uuidsOf n = .ok uuids) : t.identities.uuidsOf n = .ok uuids := by
  rw [Identities.uuidsOf_eq_ok_iff] at hu ⊢
  rw [hc.uuids, if_pos hmem, hu]

theorem headerOf?_eq (hc : s.Carried order t) (horder : order.Perm s.components)
    (hh : s.history n = .ok h) : t.headerOf? h.shape = s.headerOf? h.shape := by
  cases hshape : h.shape with
  | concept => rfl
  | semantic assemblage referenced =>
    obtain ⟨schema, hs, ht⟩ := hc.schema horder hh (by rw [hshape]; rfl)
    rw [headerOf?, headerOf?, schema_eq_ok_iff.1 hs, schema_eq_ok_iff.1 ht]

theorem exportHistory_eq (hc : s.Carried order t) (hs : s.Sound) (hi : s.Indexed)
    (horder : order.Perm s.components) (n : Nid) : t.exportHistory n = s.exportHistory n := by
  by_cases hmem : n ∈ order
  · obtain ⟨h, hh⟩ := mem_components_iff.1 (horder.mem_iff.1 hmem)
    have hget := history_eq_ok hh
    obtain rfl := hi.nid hget
    obtain ⟨uuids, hu, -⟩ := (hs.supports hget).named
    rw [← Identities.uuidsOf_eq_ok_iff] at hu
    have hget' := history_eq_ok (hc.history horder hh)
    have hsame : t.recordWith (withoutDrafts h) uuids = s.recordWith h uuids := by
      show Record.History.mk h.nid h.shape.kind uuids (t.headerOf? h.shape) _ = _
      rw [hc.headerOf?_eq horder hh]
      rfl
    have hexport := exportHistory_eq_map (h := withoutDrafts h) (hc.sound.supports hget').described
      hget'
    rw [show (withoutDrafts h).nid = h.nid from rfl, hc.uuidsOf hmem hu] at hexport
    rw [hexport, exportHistory_eq_map (hs.supports hget).described hget, hu]
    exact congrArg (fun r : Record.History => Except.ok r.encode) hsame
  · have hcomponents : n ∉ s.components := fun hn => hmem (horder.mem_iff.2 hn)
    rw [exportHistory_of_not_mem hcomponents,
      exportHistory_of_not_mem fun hn => hmem (hc.components ▸ hn)]

theorem carriedOver (hc : s.Carried order t) (hs : s.Sound) (hi : s.Indexed)
    (horder : order.Perm s.components) : s.CarriedOver t where
  components := hc.components ▸ horder
  uuids n hn := by
    obtain ⟨h, hh⟩ := mem_components_iff.1 hn
    have hget := history_eq_ok hh
    obtain rfl := hi.nid hget
    obtain ⟨uuids, hu, -⟩ := (hs.supports hget).named
    rw [← Identities.uuidsOf_eq_ok_iff] at hu
    exact ⟨uuids, hu, hc.uuidsOf (horder.mem_iff.2 hn) hu⟩
  histories {n h} hh := by
    have hnid : h.nid = n := hi.nid (history_eq_ok hh)
    exact ⟨withoutDrafts h, hc.history horder hh, hnid, rfl, rfl, pending_withoutDrafts h⟩
  kinds {n h} hh := by
    have hget := history_eq_ok hh
    have hget' := history_eq_ok (hc.history horder hh)
    obtain rfl := hi.nid hget
    exact ⟨Identities.kindOf_of_get? (hs.supports hget).kind,
      Identities.kindOf_of_get? (hc.sound.supports hget').kind⟩
  schemas hh ha := hc.schema horder hh ha
  semanticsOf assemblage := hc.under_eq hi horder (.assemblage assemblage)
  semanticsAbout assemblage referenced := hc.under_eq hi horder (.referenced assemblage referenced)
  semanticsHolding value := hc.under_eq hi horder (.value value)
  exportStamps := by rw [exportStamps, hc.stamps, exportStamps]
  exportHistory := hc.exportHistory_eq hs hi horder

end Carried

/-- A store that regular operations made is carried over to an empty one by its stamps and
    the records of its components, in whichever order they are imported. -/
theorem importAll_carries_over {order : List Nid} (hs : s.RegularlyReachable)
    (ht : s.Transferable) (horder : order.Perm s.components) :
    ∃ records t, order.mapM s.exportHistory = .ok records ∧
      (importAll s.exportStamps records).perform empty = (.ok order, t) ∧ s.CarriedOver t := by
  have hi := indexed_of_reachable hs.reachable
  have hnodup : ([] ++ order).Nodup := horder.nodup_iff.2 hi.nodup
  obtain ⟨records, t, hexport, hperform, hc⟩ := (carried_nil hs.sound).steps hs.sound hi ht
    (fun n hn => horder.mem_iff.1 hn) hnodup
  refine ⟨records, t, hexport, ?_, hc.carriedOver hs.sound hi horder⟩
  rw [importAll, perform_bind, perform_importStamps_empty hs.sound ht.stamps]
  exact hperform

theorem transferable_founding : (empty.run founding).Transferable := by
  have hschemas : (empty.run founding).schemas.entries = [(⟨1⟩, ⟨#[.nid]⟩)] := by cbv
  have huuids : ∀ e ∈ (empty.run founding).identities.uuids.entries,
      e.2.length < UInt16.size := by decide
  have hhistories : ∀ e ∈ (empty.run founding).histories.entries,
      e.2.committed.length < UInt32.size ∧
        ∀ v ∈ e.2.committed, v.payload.octets.length < UInt32.size := by
    decide
  refine ⟨⟨fun _ hu => ?_, fun hg => ?_, fun hh => ?_, fun hh hv => ?_⟩, by decide⟩
  · exact huuids _ (Table.mem_entries_of_get? (Identities.uuidsOf_eq_ok_iff.1 hu))
  · have hmem := Table.mem_entries_of_get? (schema_eq_ok_iff.1 hg)
    rw [hschemas] at hmem
    obtain ⟨-, rfl⟩ := Prod.mk.inj (List.mem_singleton.1 hmem)
    decide
  · exact (hhistories _ (Table.mem_entries_of_get? (history_eq_ok hh))).1
  · exact (hhistories _ (Table.mem_entries_of_get? (history_eq_ok hh))).2 _ hv

/-- The semantic is imported before the concept that is its assemblage. -/
theorem importAll_carries_over_founding :
    (empty.run founding).Transferable ∧ [⟨2⟩, ⟨1⟩].Perm (empty.run founding).components ∧
      ∃ records t, [⟨2⟩, ⟨1⟩].mapM (empty.run founding).exportHistory = .ok records ∧
        (importAll (empty.run founding).exportStamps records).perform empty =
          (.ok [⟨2⟩, ⟨1⟩], t) ∧ (empty.run founding).CarriedOver t := by
  have hregular : ∀ op ∈ founding, ∀ s, op.Regular s := by
    simp [founding, Operation.Regular]
  have horder : [⟨2⟩, ⟨1⟩].Perm (empty.run founding).components := by decide
  exact ⟨transferable_founding, horder, importAll_carries_over (regularlyReachable_run hregular)
    transferable_founding horder⟩

end Bitemporal.Store
