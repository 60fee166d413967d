import Bitemporal.Proofs.Refusal
import Bitemporal.Proofs.StampTable
import Bitemporal.Proofs.Store.Action
import Bitemporal.Store.Components
import Bitemporal.Store.Transfer
import Bitemporal.Store.Versions

/-!
# What actions come to

For each action that touches histories, a relation says everything that it can
come to: its answer and the store after it, with what was found out on the way
(`Appended`, `Updated`, `Committed`, `Created`, `Imported`). Each action is shown
once to come to nothing else; what is said about actions elsewhere is said by
cases on these relations. Of the actions that go to one table alone, a lemma says what
is left (`after_defineAssemblage`, `after_declarePath`, `after_importStamps`).
-/

namespace Bitemporal.Store

open Bitemporal.Store.Action

variable {s t : Store}

theorem history_eq_ok {nid : Nid} {h : History} (hh : s.history nid = .ok h) :
    s.histories.get? nid = some h := by
  rw [history] at hh
  split at hh
  · next h' hg => rw [hg, Except.ok.inj hh]
  · simp at hh

theorem history_eq_ok_iff {nid : Nid} {h : History} :
    s.history nid = .ok h ↔ s.histories.get? nid = some h :=
  ⟨history_eq_ok, fun hh => by rw [history, hh]⟩

theorem contains_eq_false_iff {nid : Nid} :
    s.contains nid = false ↔ s.histories.get? nid = none :=
  Option.isSome_eq_false_iff.trans Option.isNone_iff_eq_none

theorem exists_history {nid : Nid} (hs : s.contains nid = true) : ∃ h, s.history nid = .ok h := by
  obtain ⟨h, hget⟩ := Option.isSome_iff_exists.1 hs
  exact ⟨h, history_eq_ok_iff.2 hget⟩

theorem mem_components_iff {nid : Nid} : nid ∈ s.components ↔ ∃ h, s.history nid = .ok h := by
  rw [components, ← Table.contains_iff_mem_keys, Table.contains, Option.isSome_iff_exists]
  exact exists_congr fun h => history_eq_ok_iff.symm

theorem schema_eq_ok_iff {assemblage : Nid} {schema : Schema} :
    s.schema assemblage = .ok schema ↔ s.schemas.get? assemblage = some schema := by
  rw [Store.schema]
  cases s.schemas.get? assemblage <;> simp

theorem perform_intern {stamp : Stamp} {seq : StampSeq} {stamps : StampTable}
    (h : s.stamps.intern stamp = .ok (seq, stamps)) :
    (intern stamp).perform s = (.ok seq, { s with stamps }) := by
  simp [intern, h, Except.map]

/-! ## Versions -/

/-- What appending a version can come to. -/
inductive Appended (s : Store) (nid : Nid) (stamp : Stamp) (values : List FieldValue) :
    Except Error Handle → Store → Prop
  | refused (e : Error) : Appended s nid stamp values (.error e) s
  | drafted {h : History} {payload : Payload} : s.histories.get? nid = some h →
      s.payloadFor h values = .ok payload → stamp.isUncommitted = true →
      Appended s nid stamp values (.ok ⟨nid, h.nextSlot⟩)
        { s with histories := s.histories.insert nid (h.appendDraft { stamp, payload }).2 }
  | committed {h : History} {payload : Payload} {seq : StampSeq} {stamps : StampTable} :
      s.histories.get? nid = some h → s.payloadFor h values = .ok payload →
      stamp.isUncommitted = false → h.checkOrder stamp.time = .ok () →
      s.stamps.intern stamp = .ok (seq, stamps) →
      Appended s nid stamp values (.ok ⟨nid, h.nextSlot⟩)
        { s with
          stamps
          histories := s.histories.insert nid { h with
            committed := h.committed ++ [{ stamp, seq, payload }]
            slots := h.slots ++ [.committed seq] }
          index := s.index.fileVersion nid { stamp, seq, payload } }

theorem appendCommitted_eq {h : History} {version : Version}
    (ho : h.checkOrder version.stamp.time = .ok ()) :
    h.appendCommitted version = .ok (h.nextSlot,
      { h with
        committed := h.committed ++ [version]
        slots := h.slots ++ [.committed version.seq] }) := by
  rw [History.appendCommitted, ho]
  rfl

theorem appended (s : Store) (nid : Nid) (stamp : Stamp) (values : List FieldValue) :
    Appended s nid stamp values ((append nid stamp values).perform s).1
      ((append nid stamp values).perform s).2 := by
  simp only [append, perform_bind, perform_get, perform_lift]
  cases hh : s.history nid with
  | error e => exact .refused e
  | ok h =>
    cases hp : s.payloadFor h values with
    | error e => simpa [hp] using .refused e
    | ok payload =>
      cases hu : stamp.isUncommitted with
      | true =>
        simpa [hp, hu, putHistory, Except.map] using .drafted (history_eq_ok hh) hp hu
      | false =>
        obtain ⟨seq, stamps, hi⟩ := s.stamps.exists_intern hu
        cases ho : h.checkOrder stamp.time with
        | error e => simpa [hp, hu, ho] using .refused e
        | ok u =>
          have ha : h.appendCommitted ⟨stamp, seq, payload⟩ = _ := appendCommitted_eq ho
          simpa [hp, hu, ho, perform_intern hi, ha, putHistory, fileCommitted, Except.map] using
            Appended.committed (history_eq_ok hh) hp hu ho hi

theorem draft_eq_ok {h : History} {slot : UInt32} {draft : Draft} (hd : h.draft slot = .ok draft) :
    h.slots[slot.toNat]? = some (.pending draft) := by
  rw [History.draft] at hd
  split at hd
  · next held hs => rw [hs, Except.ok.inj hd]
  · simp at hd
  · simp at hd

/-- What giving a draft other values can come to. -/
inductive Updated (s : Store) (handle : Handle) (values : List FieldValue) :
    Except Error Unit → Store → Prop
  | refused (e : Error) : Updated s handle values (.error e) s
  | replaced {h : History} {payload : Payload} {draft : Draft} :
      s.histories.get? handle.nid = some h → s.payloadFor h values = .ok payload →
      h.slots[handle.slot.toNat]? = some (.pending draft) →
      Updated s handle values (.ok ())
        { s with histories := s.histories.insert handle.nid { h with
            slots := h.slots.set handle.slot.toNat (.pending { draft with payload }) } }

theorem updated (s : Store) (handle : Handle) (values : List FieldValue) :
    Updated s handle values ((updateDraft handle values).perform s).1
      ((updateDraft handle values).perform s).2 := by
  simp only [updateDraft, perform_bind, perform_get, perform_lift]
  cases hh : s.history handle.nid with
  | error e => exact .refused e
  | ok h =>
    cases hp : s.payloadFor h values with
    | error e => simpa [hp] using .refused e
    | ok payload =>
      cases hd : h.draft handle.slot with
      | error e => simpa [hp, History.replacePayload, hd] using .refused e
      | ok draft =>
        simpa [hp, History.replacePayload, hd, putHistory] using
          Updated.replaced (history_eq_ok hh) hp (draft_eq_ok hd)

/-- What committing a draft can come to. -/
inductive Committed (s : Store) (handle : Handle) (time : Timestamp) :
    Except Error StampSeq → Store → Prop
  | refused (e : Error) : Committed s handle time (.error e) s
  | committed {h : History} {draft : Draft} {seq : StampSeq} {stamps : StampTable} :
      time.isUncommitted = false → s.histories.get? handle.nid = some h →
      h.slots[handle.slot.toNat]? = some (.pending draft) → h.checkOrder time = .ok () →
      s.stamps.intern (draft.stamp.withTime time) = .ok (seq, stamps) →
      Committed s handle time (.ok seq)
        { s with
          stamps
          histories := s.histories.insert handle.nid { h with
            committed :=
              h.committed ++ [{ stamp := draft.stamp.withTime time, seq, payload := draft.payload }]
            slots := h.slots.set handle.slot.toNat (.committed seq) }
          index := s.index.fileVersion handle.nid
            { stamp := draft.stamp.withTime time, seq, payload := draft.payload } }

theorem commitDraft_eq {h : History} {slot : UInt32} {draft : Draft} {stamp : Stamp}
    (seq : StampSeq) (hc : h.checkCommit slot stamp.time = .ok draft) :
    h.commitDraft slot stamp seq = .ok ({ stamp, seq, payload := draft.payload },
      { h with
        committed := h.committed ++ [{ stamp, seq, payload := draft.payload }]
        slots := h.slots.set slot.toNat (.committed seq) }) := by
  rw [History.commitDraft, hc]
  rfl

theorem checkCommit_eq_ok {h : History} {slot : UInt32} {time : Timestamp} {draft : Draft}
    (hc : h.checkCommit slot time = .ok draft) :
    h.slots[slot.toNat]? = some (.pending draft) ∧ h.checkOrder time = .ok () := by
  obtain ⟨draft', hd, hc⟩ := bind_eq_ok_iff.1 hc
  obtain ⟨⟨⟩, ho, hc⟩ := bind_eq_ok_iff.1 hc
  obtain rfl := pure_eq_ok_iff.1 hc
  exact ⟨draft_eq_ok hd, ho⟩

theorem committed (s : Store) (handle : Handle) (time : Timestamp) :
    Committed s handle time ((commit handle time).perform s).1
      ((commit handle time).perform s).2 := by
  rw [commit]
  cases ht : time.isUncommitted with
  | true => exact .refused _
  | false =>
    cases hh : s.history handle.nid with
    | error e => simpa [hh] using .refused e
    | ok h =>
      cases hc : h.checkCommit handle.slot time with
      | error e => simpa [hh, hc] using .refused e
      | ok draft =>
        obtain ⟨hd, ho⟩ := checkCommit_eq_ok hc
        have hu : (draft.stamp.withTime time).isUncommitted = false := ht
        obtain ⟨seq, stamps, hi⟩ := s.stamps.exists_intern hu
        have he : h.commitDraft handle.slot (draft.stamp.withTime time) seq = _ :=
          commitDraft_eq seq hc
        simpa [hh, hc, perform_intern hi, he, putHistory, fileCommitted, Except.map] using
          Committed.committed ht (history_eq_ok hh) hd ho hi

/-! ## Components -/

theorem perform_onIdentities {α : Type} (f : Identities → Except Error (α × Identities))
    (s : Store) :
    (onIdentities f).perform s =
      match f s.identities with
      | .ok (a, identities) => (.ok a, { s with identities })
      | .error e => (.error e, s) := by
  cases h : f s.identities with
  | error e => simp [onIdentities, h]
  | ok x => simp [onIdentities, h, Except.map]

/-- A component of a shape may be made, and has a number and a kind in some
    identities. -/
structure Registered (s : Store) (uuids : List Uuid) (shape : Shape) (nid : Nid)
    (identities : Identities) : Prop where
  shape_ok : s.checkShape shape = .ok ()
  owner_ok : s.checkOwner uuids shape.kind = .ok ()
  registered : ∃ numbered seq, s.identities.nidFor uuids = .ok (nid, numbered) ∧
    numbered.registerKind nid shape.kind = .ok (seq, identities)

/-- What creating a component can come to. -/
inductive Created (s : Store) (uuids : List Uuid) (shape : Shape) :
    Except Error Nid → Store → Prop
  | refused (e : Error) : Created s uuids shape (.error e) s
  | unregistered {e : Error} {nid : Nid} {identities : Identities} :
      s.identities.nidFor uuids = .ok (nid, identities) →
      identities.registerKind nid shape.kind = .error e →
      Created s uuids shape (.error e) { s with identities }
  | found {nid : Nid} {identities : Identities} {h : History} :
      Registered s uuids shape nid identities → s.histories.get? nid = some h → h.shape = shape →
      Created s uuids shape (.ok nid) { s with identities }
  | contradicted {nid : Nid} {identities : Identities} {h : History} :
      Registered s uuids shape nid identities → s.histories.get? nid = some h → h.shape ≠ shape →
      Created s uuids shape (.error (.invalidOperation (.otherShape nid))) { s with identities }
  | made {nid : Nid} {identities : Identities} :
      Registered s uuids shape nid identities → s.histories.get? nid = none →
      Created s uuids shape (.ok nid)
        { s with
          identities
          histories := s.histories.insert nid { nid, shape }
          index := s.index.fileShape nid shape }

theorem created (s : Store) (uuids : List Uuid) (shape : Shape) :
    Created s uuids shape ((create uuids shape).perform s).1
      ((create uuids shape).perform s).2 := by
  simp only [create, perform_bind, perform_get, perform_lift, perform_onIdentities]
  cases hs : s.checkShape shape with
  | error e => exact .refused e
  | ok u =>
    cases ho : s.checkOwner uuids shape.kind with
    | error e => simpa [ho] using .refused e
    | ok u' =>
      cases hn : s.identities.nidFor uuids with
      | error e => simpa [ho, hn] using .refused e
      | ok numbered =>
        obtain ⟨nid, numbered⟩ := numbered
        cases hk : numbered.registerKind nid shape.kind with
        | error e => simpa [ho, hn, hk] using .unregistered hn hk
        | ok known =>
          obtain ⟨seq, identities⟩ := known
          have hr : Registered s uuids shape nid identities := ⟨hs, ho, _, _, hn, hk⟩
          cases hh : s.histories.get? nid with
          | none => simpa [ho, hn, hk, hh, Except.map] using .made hr hh
          | some h =>
            by_cases hsh : h.shape = shape
            · simpa [ho, hn, hk, hh, hsh] using .found hr hh hsh
            · simpa [ho, hn, hk, hh, hsh] using .contradicted hr hh hsh

/-- A path is created as a concept, and declared after that unless it was refused. -/
theorem after_createPath (s : Store) (fresh : Uuid) (origins : List Origin) :
    ((createPath fresh origins).perform s).2 = ((create [fresh] .concept).perform s).2 ∨
      ∃ path, ((createPath fresh origins).perform s).2 =
        ((declarePath path origins).perform ((create [fresh] .concept).perform s).2).2 := by
  rw [createPath, perform_bind]
  rcases (create [fresh] .concept).perform s with ⟨e | path, t⟩
  · exact .inl rfl
  · refine .inr ⟨path, ?_⟩
    dsimp only
    rw [perform_bind]
    rcases (declarePath path origins).perform t with ⟨e | v, u⟩ <;> rfl

/-! ## Tables -/

/-- Declaring a schema leaves a store, or adds the schema to an assemblage that had none. -/
theorem after_defineAssemblage (s : Store) (assemblage : Nid) (schema : Schema) :
    ((defineAssemblage assemblage schema).perform s).2 = s ∨
      s.schemas.get? assemblage = none ∧ ((defineAssemblage assemblage schema).perform s).2 =
        { s with schemas := s.schemas.insert assemblage schema } := by
  rw [defineAssemblage]
  cases hc : s.identities.contains assemblage with
  | false => simp [hc]
  | true =>
    cases hg : s.schemas.get? assemblage with
    | none => simp [hc, installSchema, hg]
    | some held => by_cases hs : held = schema <;> simp [hc, installSchema, hg, hs]

theorem after_declarePath (s : Store) (path : Nid) (origins : List Origin) :
    ∃ lineage, ((declarePath path origins).perform s).2 = { s with lineage } := by
  rw [declarePath]
  cases hc : checkConcepts s.identities (path :: origins.map Origin.path) with
  | error e => exact ⟨s.lineage, by simp [hc]⟩
  | ok u =>
    cases hd : s.lineage.declare path origins with
    | error e => exact ⟨s.lineage, by simp [hc, hd]⟩
    | ok lineage => exact ⟨lineage, by simp [hc, hd]⟩

/-- Stamps are taken from a record, or nothing is, if there is none. -/
theorem after_importStamps (s : Store) (octets : List UInt8) :
    ((importStamps octets).perform s).2 = s ∨ ∃ rows,
      ((importStamps octets).perform s).2 = { s with stamps := (s.stamps.restore rows).2 } := by
  rw [importStamps]
  cases Record.decodeStamps octets with
  | error fault => exact .inl rfl
  | ok rows => exact .inr ⟨rows, rfl⟩

/-! ## Records -/

/-- A replay adds versions and changes nothing else. -/
theorem replay_eq_ok {stamps : StampTable} {schema : Option Schema} {h h' : History}
    {rows : List Record.VersionRow} (hr : replay stamps schema h rows = .ok h') :
    h'.nid = h.nid ∧ h'.shape = h.shape := by
  induction rows generalizing h with
  | nil =>
    obtain rfl : h = h' := Except.ok.inj hr
    exact ⟨rfl, rfl⟩
  | cons row rest ih =>
    obtain ⟨stamp, -, hr⟩ := bind_eq_ok_iff.1 hr
    obtain ⟨payload, -, hr⟩ := bind_eq_ok_iff.1 hr
    obtain ⟨⟨slot, h₁⟩, ha, hr⟩ := bind_eq_ok_iff.1 hr
    obtain ⟨-, -, ha⟩ := bind_eq_ok_iff.1 ha
    obtain ⟨-, rfl⟩ := Prod.mk.inj (pure_eq_ok_iff.1 ha)
    dsimp only at hr
    obtain ⟨hnid, hshape⟩ := ih hr
    exact ⟨hnid, hshape⟩

theorem recordedShape_eq_ok {r : Record.History} {shape : Shape} {schema : Option Schema}
    (hr : s.recordedShape r = .ok (shape, schema)) :
    shape.kind = r.kind ∧ (shape = .concept ∧ schema = none ∨
      ∃ assemblage referenced declared, shape = .semantic assemblage referenced ∧
        schema = some declared ∧
        (s.schemas.get? assemblage = none ∨ s.schemas.get? assemblage = some declared)) := by
  rw [recordedShape] at hr
  split at hr
  · next hk _ =>
    obtain ⟨rfl, rfl⟩ := Prod.mk.inj (Except.ok.inj hr)
    exact ⟨hk.symm, .inl ⟨rfl, rfl⟩⟩
  · next header hk _ =>
    dsimp only at hr
    split at hr
    · next hg =>
      obtain ⟨rfl, rfl⟩ := Prod.mk.inj (Except.ok.inj hr)
      exact ⟨hk.symm, .inr ⟨_, _, _, rfl, rfl, .inl hg⟩⟩
    · next held hg =>
      split at hr
      · next hd =>
        obtain ⟨rfl, rfl⟩ := Prod.mk.inj (Except.ok.inj hr)
        exact ⟨hk.symm, .inr ⟨_, _, _, rfl, rfl, .inr hg⟩⟩
      · simp at hr
  · simp at hr

/-- What is known of a record whose history was accepted. -/
theorem recordedHistory_eq_ok {r : Record.History} {h : History} {schema : Option Schema}
    (hr : s.recordedHistory r = .ok (h, schema)) :
    r.uuids ≠ [] ∧ s.histories.get? r.nid = none ∧ h.nid = r.nid ∧
      s.recordedShape r = .ok (h.shape, schema) ∧
      replay s.stamps schema { nid := r.nid, shape := h.shape } r.versions = .ok h := by
  rw [recordedHistory] at hr
  by_cases hu : r.uuids.isEmpty = true
  · simp [hu, throw, throwThe, MonadExceptOf.throw] at hr
  · by_cases hc : s.contains r.nid = true
    · simp [hu, hc, throw, throwThe, MonadExceptOf.throw] at hr
    · simp only [hu, hc] at hr
      obtain ⟨⟨shape, schema'⟩, hshape, hr⟩ := bind_eq_ok_iff.1 hr
      obtain ⟨h', hreplay, hr⟩ := bind_eq_ok_iff.1 hr
      obtain ⟨rfl, rfl⟩ := Prod.mk.inj (pure_eq_ok_iff.1 hr)
      obtain ⟨hnid, rfl⟩ := replay_eq_ok hreplay
      refine ⟨fun e => hu (by rw [e]; rfl), ?_, hnid, hshape, hreplay⟩
      exact Option.not_isSome_iff_eq_none.1 hc

/-- The declared schemas after the schema of a record is installed. -/
def schemasWith (s : Store) : Shape → Option Schema → Table Nid Schema
  | .semantic assemblage _, some schema =>
    match s.schemas.get? assemblage with
    | some _ => s.schemas
    | none => s.schemas.insert assemblage schema
  | _, _ => s.schemas

theorem perform_installRecorded {r : Record.History} {shape : Shape} {schema : Option Schema}
    (hr : s.recordedShape r = .ok (shape, schema)) :
    (installRecorded shape schema).perform s =
      (.ok (), { s with schemas := s.schemasWith shape schema }) := by
  obtain ⟨-, ⟨rfl, rfl⟩ | ⟨assemblage, referenced, declared, rfl, rfl, hg | hg⟩⟩ :=
    recordedShape_eq_ok hr
  · rfl
  · simp [installRecorded, Shape.assemblage?, installSchema, schemasWith, hg]
  · simp [installRecorded, Shape.assemblage?, installSchema, schemasWith, hg]

/-- A record is installed if the store and its identities accept it. -/
theorem perform_importHistory {octets : List UInt8} {r : Record.History} {h : History}
    {schema : Option Schema} {seq : SequenceNumber} {identities : Identities}
    (hd : Record.History.decode octets = .ok r) (hr : s.recordedHistory r = .ok (h, schema))
    (hres : s.identities.restore r.nid r.uuids r.kind = (.ok seq, identities)) :
    (importHistory octets).perform s = (.ok r.nid,
      { s with
        schemas := s.schemasWith h.shape schema
        identities
        histories := s.histories.insert r.nid h
        index := s.index.fileHistory h }) := by
  have hi := perform_installRecorded (recordedHistory_eq_ok hr).2.2.2.1
  rw [importHistory, hd]
  simp [hr, hi, restoreIdentity, hres, Except.map]

/-- What importing a record can come to. -/
inductive Imported (s : Store) (octets : List UInt8) : Except Error Nid → Store → Prop
  | refused (e : Error) : Imported s octets (.error e) s
  | contradicted {e : Error} {r : Record.History} {h : History} {schema : Option Schema}
      {identities : Identities} :
      Record.History.decode octets = .ok r → s.recordedHistory r = .ok (h, schema) →
      s.identities.restore r.nid r.uuids r.kind = (.error e, identities) →
      Imported s octets (.error e)
        { s with schemas := s.schemasWith h.shape schema, identities }
  | installed {r : Record.History} {h : History} {schema : Option Schema} {seq : SequenceNumber}
      {identities : Identities} :
      Record.History.decode octets = .ok r → s.recordedHistory r = .ok (h, schema) →
      s.identities.restore r.nid r.uuids r.kind = (.ok seq, identities) →
      Imported s octets (.ok r.nid)
        { s with
          schemas := s.schemasWith h.shape schema
          identities
          histories := s.histories.insert r.nid h
          index := s.index.fileHistory h }

theorem imported (s : Store) (octets : List UInt8) :
    Imported s octets ((importHistory octets).perform s).1
      ((importHistory octets).perform s).2 := by
  cases hd : Record.History.decode octets with
  | error fault =>
    rw [importHistory, hd]
    exact .refused _
  | ok r =>
    cases hr : s.recordedHistory r with
    | error e =>
      rw [importHistory, hd]
      simpa [hr] using .refused e
    | ok x =>
      obtain ⟨h, schema⟩ := x
      rcases hres : s.identities.restore r.nid r.uuids r.kind with ⟨e | seq, identities⟩
      · have hi := perform_installRecorded (recordedHistory_eq_ok hr).2.2.2.1
        rw [importHistory, hd]
        simpa [hr, hi, restoreIdentity, hres] using .contradicted hd hr hres
      · rw [perform_importHistory hd hr hres]
        exact .installed hd hr hres

end Bitemporal.Store
