import Bitemporal.Proofs.History.Slots
import Bitemporal.Proofs.Store.Soundness
import Mathlib

/-!
# What the histories of a store hold

Versions come into a history in three ways: they are committed when they are appended,
they are committed as drafts, or they are replayed from a record. Whichever way it is, the
history stays well kept, and its versions carry what the schemas of the store allow. No
operation is excepted, whatever it does to the identities and the stamps
(`contents_of_reachable`).

The versions are numbered by places of their stamps besides. For this the stamps must not
be reset without the histories (`contents_run`). `history_invariant` says what comes out of
all this for one history.
-/

namespace Bitemporal

/-! ## Stamps of versions -/

namespace StampTable

variable {t t' : StampTable} {versions : List Version} {version : Version}

/-- Versions are numbered by places at which their stamps stand. -/
def Marks (t : StampTable) (versions : List Version) : Prop :=
  ∀ v ∈ versions, t.Places v.seq v.stamp

theorem Marks.grow (hm : t.Marks versions) (hg : t.GrowsTo t') : t'.Marks versions :=
  fun v hv => (hm v hv).grow hg

theorem Marks.concat (hm : t.Marks versions) (hp : t.Places version.seq version.stamp) :
    t.Marks (versions ++ [version]) :=
  List.forall_mem_append.2 ⟨hm, List.forall_mem_singleton.2 hp⟩

end StampTable

namespace Store

variable {marked : Prop} {s t : Store} {h : History} {nid n : Nid}

/-! ## Contents -/

/-- Every stamp that is interned has a time of its own, the stamps are looked up where they
    stand, and every history is well kept. If the versions are to be marked, they are numbered
    by places of their stamps. -/
structure Contents (marked : Prop) (s : Store) : Prop where
  stamps : s.stamps.Committed
  coherent : s.stamps.Coherent
  wellKept : ∀ {n h}, s.histories.get? n = some h → h.WellKept (s.Declares h.shape)
  marks : marked → ∀ {n h}, s.histories.get? n = some h → s.stamps.Marks h.committed

theorem contents_empty : empty.Contents marked where
  stamps := StampTable.committed_empty
  coherent := StampTable.coherent_empty
  wellKept hget := absurd hget (by simp [empty])
  marks _ _ _ hget := absurd hget (by simp [empty])

theorem Declares.of_eq {shape : Shape} {payload : Payload} (hd : s.Declares shape payload)
    (ht : t.schemas = s.schemas) : t.Declares shape payload := by
  cases shape with
  | concept => exact hd
  | semantic assemblage referenced => simpa only [Declares, ht] using hd

/-- A history is well kept next to tables that have grown. -/
theorem Contents.wellKept_grown (hs : s.Contents marked) (hg : s.TablesGrow t)
    (hget : s.histories.get? n = some h) : h.WellKept (t.Declares h.shape) :=
  (hs.wellKept hget).imp fun _ hp => hp.grow hg

theorem Contents.grow (hs : s.Contents marked) (hg : s.TablesGrow t)
    (hh : t.histories = s.histories) : t.Contents marked where
  stamps := hg.stamps.committed hs.stamps
  coherent := hg.stamps.coherent hs.coherent
  wellKept hget := hs.wellKept_grown hg (hh ▸ hget)
  marks hmarked _ _ hget := (hs.marks hmarked (hh ▸ hget)).grow hg.stamps

/-- A history may be put in place if it is well kept and marked. -/
theorem Contents.put (hs : s.Contents marked) (hg : s.TablesGrow t)
    (hh : t.histories = s.histories.insert nid h) (hk : h.WellKept (t.Declares h.shape))
    (hm : marked → t.stamps.Marks h.committed) : t.Contents marked where
  stamps := hg.stamps.committed hs.stamps
  coherent := hg.stamps.coherent hs.coherent
  wellKept := by
    intro n k hget
    rw [hh, Table.get?_insert] at hget
    split at hget
    · obtain rfl := Option.some.inj hget
      exact hk
    · exact hs.wellKept_grown hg hget
  marks := by
    intro hmarked n k hget
    rw [hh, Table.get?_insert] at hget
    split at hget
    · obtain rfl := Option.some.inj hget
      exact hm hmarked
    · exact (hs.marks hmarked hget).grow hg.stamps

/-! ## Actions -/

theorem Appended.contents {stamp : Stamp} {values : List FieldValue}
    {answer : Except Error Handle} (ha : s.Appended nid stamp values answer t)
    (hs : s.Contents marked) : t.Contents marked := by
  have hg := ha.tablesGrow
  cases ha with
  | refused e => exact hs
  | drafted hget hp hu =>
    refine hs.put hg rfl ?_ fun hmarked => (hs.marks hmarked hget).grow hg.stamps
    exact (hs.wellKept_grown hg hget).drafted hu ((declares_of_payloadFor hp).grow hg)
  | committed hget hp hu ho hi =>
    refine hs.put hg rfl ?_ fun hmarked => ?_
    · exact (hs.wellKept_grown hg hget).appended hu ((declares_of_payloadFor hp).grow hg) ho
    · exact ((hs.marks hmarked hget).grow hg.stamps).concat
        (StampTable.places_of_intern hs.coherent hi)

theorem Updated.contents {handle : Handle} {values : List FieldValue} {answer : Except Error Unit}
    (hu : s.Updated handle values answer t) (hs : s.Contents marked) : t.Contents marked := by
  have hg := hu.tablesGrow
  cases hu with
  | refused e => exact hs
  | replaced hget hp hslot =>
    refine hs.put hg rfl ?_ fun hmarked => (hs.marks hmarked hget).grow hg.stamps
    exact (hs.wellKept_grown hg hget).replaced hslot ((declares_of_payloadFor hp).grow hg)

theorem Committed.contents {handle : Handle} {time : Timestamp} {answer : Except Error StampSeq}
    (hc : s.Committed handle time answer t) (hs : s.Contents marked) : t.Contents marked := by
  have hg := hc.tablesGrow
  cases hc with
  | refused e => exact hs
  | committed ht hget hslot ho hi =>
    refine hs.put hg rfl ?_ fun hmarked => ?_
    · exact (hs.wellKept_grown hg hget).settled hslot ht rfl ho
    · exact ((hs.marks hmarked hget).grow hg.stamps).concat
        (StampTable.places_of_intern hs.coherent hi)

theorem Created.contents {uuids : List Uuid} {shape : Shape} {answer : Except Error Nid}
    (hc : s.Created uuids shape answer t) (hs : s.Contents marked) : t.Contents marked := by
  have hg := hc.tablesGrow
  cases hc with
  | refused e => exact hs
  | unregistered hn hk => exact hs.grow hg rfl
  | found hr hget hshape => exact hs.grow hg rfl
  | contradicted hr hget hshape => exact hs.grow hg rfl
  | made hr hget =>
    refine hs.put hg rfl ?_ fun _ v hv => absurd hv List.not_mem_nil
    exact .of_committed .nil (fun _ hv => absurd hv List.not_mem_nil) rfl

theorem Imported.contents {octets : List UInt8} {answer : Except Error Nid}
    (hi : s.Imported octets answer t) (hs : s.Contents marked) : t.Contents marked := by
  have hg := hi.tablesGrow
  cases hi with
  | refused e => exact hs
  | contradicted hd hr hres => exact hs.grow hg rfl
  | @installed r h schema seq identities hd hr hres =>
    obtain ⟨-, -, -, hshape, hreplay⟩ := recordedHistory_eq_ok hr
    have hnone : Replayed s.stamps schema r.nid [] := replayed_nil
    obtain ⟨versions, hh, hv⟩ := hnone.of_replay hreplay
    have hcommitted : h.committed = versions := congrArg History.committed hh
    refine hs.put hg rfl (.of_committed ?_ (fun v hm => ?_) ?_) fun _ v hm => ?_
    · rw [hcommitted]
      exact hv.inOrder
    · rw [hcommitted] at hm
      obtain ⟨octets, hp⟩ := hv.payloads v hm
      exact ⟨hs.stamps.of_stamp (hv.stamps v hm), declares_of_recordedPayload hshape rfl hp⟩
    · rw [hh]
      rfl
    · exact StampTable.places_of_stamp (hv.stamps v (hcommitted ▸ hm))

theorem contents_createPath (hs : s.Contents marked) (fresh : Uuid) (origins : List Origin) :
    ((createPath fresh origins).perform s).2.Contents marked := by
  have hc := (created s [fresh] .concept).contents hs
  rcases after_createPath s fresh origins with h | ⟨path, h⟩
  · rwa [h]
  · rw [h]
    exact hc.grow (tablesGrow_declarePath _ path origins)
      (keeps_declarePath _ path origins).histories

/-! ## Operations -/

theorem Contents.after {op : Operation} (hs : s.Contents marked)
    (hop : marked → op ≠ .toStamps .reset) : (op.after s).Contents marked := by
  rw [Operation.after, Operation.perform]
  cases op with
  | create uuids shape => simpa [Operation.action] using (created s uuids shape).contents hs
  | createPath fresh origins =>
    simpa [Operation.action] using contents_createPath hs fresh origins
  | defineAssemblage assemblage schema =>
    simpa [Operation.action] using hs.grow (tablesGrow_defineAssemblage s assemblage schema)
      (keeps_defineAssemblage s assemblage schema).histories
  | declarePath path origins =>
    simpa [Operation.action] using hs.grow (tablesGrow_declarePath s path origins)
      (keeps_declarePath s path origins).histories
  | append nid stamp values =>
    simpa [Operation.action] using (appended s nid stamp values).contents hs
  | updateDraft handle values =>
    simpa [Operation.action] using (updated s handle values).contents hs
  | commit handle time => simpa [Operation.action] using (committed s handle time).contents hs
  | importStamps octets =>
    simpa [Operation.action] using hs.grow (tablesGrow_importStamps s octets)
      (keeps_importStamps s octets).histories
  | importHistory octets => simpa [Operation.action] using (imported s octets).contents hs
  | rebuildIndex => exact hs.grow (.of_eq rfl rfl rfl) rfl
  | reset => exact contents_empty
  | toIdentities request =>
    -- the identities may even be reset: a payload fits a schema without them
    exact ⟨hs.stamps, hs.coherent, fun hget => (hs.wellKept hget).imp fun _ hp => hp.of_eq rfl,
      hs.marks⟩
  | toStamps request =>
    by_cases hreset : request = .reset
    · subst hreset
      refine ⟨StampTable.committed_empty, StampTable.coherent_empty,
        fun hget => (hs.wellKept hget).imp fun _ hp => hp.of_eq rfl, fun hmarked => ?_⟩
      exact absurd rfl (hop hmarked)
    · exact hs.grow (.of_stamps rfl (StampTable.growsTo_after hreset s.stamps) rfl) rfl
  | toLineage request => exact hs.grow (.of_eq rfl rfl rfl) rfl

/-- Histories are well kept whatever was done, be it to the tables of the store alone. -/
theorem contents_of_reachable (hs : s.Reachable) : s.Contents False :=
  hs.induction contents_empty fun _ _ ht => ht.after False.elim

theorem contents_run {ops : List Operation} (hops : ∀ op ∈ ops, op ≠ .toStamps .reset) :
    (empty.run ops).Contents True :=
  run_induction contents_empty fun op hop _ ht => ht.after fun _ => hops op hop

/-- After any run that does not reset the stamps alone, the commits of a component are in
    order, have a time, and are numbered by places of their stamps, for which the numbers
    stand as long as there are enough of them; its drafts have neither a time nor a number;
    and its slots hold just the drafts and the numbers of the commits. -/
theorem history_invariant {ops : List Operation} (hops : ∀ op ∈ ops, op ≠ .toStamps .reset)
    (hh : (empty.run ops).history n = .ok h) :
    History.InOrder h.committed ∧
    (∀ v ∈ h.committed, v.stamp.time ≠ .uncommitted) ∧
    (∀ v ∈ h.committed, (empty.run ops).stamps.Places v.seq v.stamp ∧
      ((empty.run ops).stamps.size < UInt32.size →
        (empty.run ops).stamps.stamp v.seq = .ok v.stamp)) ∧
    (∀ draft ∈ h.pending,
      draft.stamp.time = .uncommitted ∧ (Entry.pending draft).seq? = none) ∧
    h.slots.length = h.committed.length + h.pending.length ∧
    (h.slots.filterMap Slot.seq?).Perm (h.committed.map Version.seq) := by
  have hs := contents_run hops
  have hget := history_eq_ok hh
  have hk := hs.wellKept hget
  refine ⟨hk.inOrder, fun v hv => ?_, fun v hv => ?_, fun draft hd => ⟨?_, rfl⟩,
    hk.length_slots, hk.numbers⟩
  · exact of_decide_eq_false (hk.committed v hv).1
  · have hplaces := hs.marks trivial hget v hv
    exact ⟨hplaces, hplaces.stamp_eq⟩
  · exact of_decide_eq_true (hk.pending draft (History.mem_pending_iff.1 hd)).1

/-- A draft is committed before another one is appended. -/
def settling : List Operation :=
  founding ++ [.commit ⟨⟨2⟩, 2⟩ ⟨30⟩, .append ⟨2⟩ (foundingStamp .uncommitted) [.nid ⟨9⟩]]

theorem history_invariant_on_settling :
    ∃ h, (∀ op ∈ settling, op ≠ .toStamps .reset) ∧
      (empty.run settling).history ⟨2⟩ = .ok h ∧
      h.committed.length = 3 ∧ h.pending.length = 1 ∧ h.slots.length = 4 ∧
      (h.slots.filterMap Slot.seq?).Perm (h.committed.map Version.seq) ∧
      ∀ v ∈ h.committed, (empty.run settling).stamps.stamp v.seq = .ok v.stamp := by
  have hops : ∀ op ∈ settling, op ≠ .toStamps .reset := by simp [settling, founding]
  obtain ⟨h, hh, hcommitted, hpending⟩ : ∃ h, (empty.run settling).history ⟨2⟩ = .ok h ∧
      h.committed.length = 3 ∧ h.pending.length = 1 := ⟨_, by cbv, by cbv, by cbv⟩
  have hsize : (empty.run settling).stamps.size = 3 := by cbv
  obtain ⟨-, -, hstamps, -, hslots, hnumbers⟩ := history_invariant hops hh
  refine ⟨h, hops, hh, hcommitted, hpending, ?_, hnumbers, fun v hv => (hstamps v hv).2 ?_⟩
  · rw [hslots, hcommitted, hpending]
  · rw [hsize]
    decide

end Store

end Bitemporal
