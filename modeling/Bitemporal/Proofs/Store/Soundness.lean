import Bitemporal.Proofs.Field.Codec
import Bitemporal.Proofs.Store.Change
import Bitemporal.Proofs.Store.Replay
import Bitemporal.Proofs.Store.Tables

/-!
# Sound stores

A history means something by what the tables of its store say. The tables *support* it
if its component has identifiers and the kind of its shape, if the assemblage of a
semantic has a schema and every version carries fields that fit it, if the numbers of
the stamps stand for them, and if the versions are in order (`Store.Supports`). A store
is *sound* if its tables support every history in it (`Store.Sound`).

Tables that grow go on supporting what they supported. So it is enough to look at the
history that an operation puts in place: at a version that is appended, a draft that is
changed or committed, a component that is made, a record that is replayed. Every regular
operation keeps a store sound, whether it is refused or not (`Sound.after`), and so all
stores are sound that regular operations make (`RegularlyReachable.sound`).
-/

namespace Bitemporal.Store

variable {s t : Store} {h : History} {nid : Nid}

/-- What versions of components of a shape may carry: nothing for a concept, and for a
    semantic a tuple of the schema of its assemblage. -/
def Declares (s : Store) : Shape → Payload → Prop
  | .concept, payload => payload = .bare
  | .semantic assemblage _, payload => ∃ schema tuple,
    s.schemas.get? assemblage = some schema ∧ payload = .fields tuple ∧ tuple.Fits schema

/-- The tables of a store support a history. -/
structure Supports (s : Store) (h : History) : Prop where
  named : s.identities.Named h.nid
  kind : ∃ seq, s.identities.kinds.get? h.nid = some (h.shape.kind, seq)
  schema : ∀ {assemblage}, h.shape.assemblage? = some assemblage →
    ∃ schema, s.schemas.get? assemblage = some schema
  committed : ∀ v ∈ h.committed, s.Declares h.shape v.payload
  pending : ∀ draft, .pending draft ∈ h.slots → s.Declares h.shape draft.payload
  /-- As long as there are enough numbers for the stamps. -/
  stamps : s.stamps.size < UInt32.size → ∀ v ∈ h.committed, s.stamps.stamp v.seq = .ok v.stamp
  inOrder : History.InOrder h.committed

/-- The assemblage of a shape, if there is one, has a schema. -/
def Described (s : Store) (shape : Shape) : Prop :=
  ∀ assemblage, shape.assemblage? = some assemblage →
    ∃ schema, s.schemas.get? assemblage = some schema

theorem Supports.described (hs : s.Supports h) : s.Described h.shape :=
  fun _ ha => hs.schema ha

/-- The tables of a store support every history in it. -/
structure Sound (s : Store) : Prop where
  identities : s.identities.Consistent
  stamps : s.stamps.Committed
  coherent : s.stamps.Coherent
  supports : ∀ {n h}, s.histories.get? n = some h → s.Supports h

/-! ## Tables that grow -/

theorem Declares.grow {shape : Shape} {payload : Payload} (hd : s.Declares shape payload)
    (hg : s.TablesGrow t) : t.Declares shape payload := by
  cases shape with
  | concept => exact hd
  | semantic assemblage referenced =>
    obtain ⟨schema, tuple, hschema, hp, hfits⟩ := hd
    exact ⟨schema, tuple, hg.schemas hschema, hp, hfits⟩

theorem Supports.grow (hs : s.Supports h) (hg : s.TablesGrow t) : t.Supports h where
  named := hg.identities.named hs.named
  kind := hs.kind.imp fun _ hk => hg.identities.kinds hk
  schema ha := (hs.schema ha).imp fun _ hd => hg.schemas hd
  committed v hv := (hs.committed v hv).grow hg
  pending draft hd := (hs.pending draft hd).grow hg
  stamps hsize v hv :=
    hg.stamps.stamp_eq (hs.stamps (Nat.lt_of_le_of_lt hg.stamps.size_le hsize) v hv)
  inOrder := hs.inOrder

theorem Sound.grow (hs : s.Sound) (hg : s.TablesGrow t) (hh : t.histories = s.histories) :
    t.Sound where
  identities := hg.identities.consistent hs.identities
  stamps := hg.stamps.committed hs.stamps
  coherent := hg.stamps.coherent hs.coherent
  supports hget := (hs.supports (hh ▸ hget)).grow hg

/-- A history that is supported may be put in place. -/
theorem Sound.put (hs : s.Sound) (hg : s.TablesGrow t) (hh : t.histories = s.histories.insert nid h)
    (hsupports : t.Supports h) : t.Sound where
  identities := hg.identities.consistent hs.identities
  stamps := hg.stamps.committed hs.stamps
  coherent := hg.stamps.coherent hs.coherent
  supports := by
    intro n k hget
    rw [hh, Table.get?_insert] at hget
    split at hget
    · obtain rfl := Option.some.inj hget
      exact hsupports
    · exact (hs.supports hget).grow hg

theorem sound_empty : empty.Sound where
  identities := Identities.consistent_empty
  stamps := StampTable.committed_empty
  coherent := StampTable.coherent_empty
  supports hget := absurd hget (by simp [empty])

/-! ## Versions -/

theorem declares_of_payloadFor {values : List FieldValue} {payload : Payload}
    (hp : s.payloadFor h values = .ok payload) : s.Declares h.shape payload := by
  rw [payloadFor] at hp
  split at hp
  · next hshape =>
    rw [hshape]
    split at hp
    · exact (Except.ok.inj hp).symm
    · cases hp
  · next assemblage referenced hshape =>
    rw [hshape]
    obtain ⟨schema, hschema, hp⟩ := bind_eq_ok_iff.1 hp
    obtain ⟨tuple, htuple, hp⟩ := bind_eq_ok_iff.1 hp
    rw [schema_eq_ok_iff] at hschema
    exact ⟨schema, tuple, hschema, (pure_eq_ok_iff.1 hp).symm, FieldTuple.fits_of_ofValues htuple⟩

theorem Supports.slots {slots : List Slot} (hs : s.Supports h)
    (hslots : ∀ draft, .pending draft ∈ slots → s.Declares h.shape draft.payload) :
    s.Supports { h with slots } :=
  ⟨hs.named, hs.kind, hs.schema, hs.committed, hslots, hs.stamps, hs.inOrder⟩

/-- One more version is committed. -/
theorem Supports.concat {version : Version} {slots : List Slot} (hs : s.Supports h)
    (hdeclared : s.Declares h.shape version.payload)
    (hstamp : s.stamps.size < UInt32.size → s.stamps.stamp version.seq = .ok version.stamp)
    (ho : h.checkOrder version.stamp.time = .ok ())
    (hslots : ∀ draft, .pending draft ∈ slots → s.Declares h.shape draft.payload) :
    s.Supports { h with committed := h.committed ++ [version], slots } := by
  refine
    { named := hs.named
      kind := hs.kind
      schema := hs.schema
      committed := List.forall_mem_append.2 ⟨hs.committed, ?_⟩
      pending := hslots
      stamps := fun hsize => List.forall_mem_append.2 ⟨hs.stamps hsize, ?_⟩
      inOrder := hs.inOrder.concat ho }
  · exact List.forall_mem_singleton.2 hdeclared
  · exact List.forall_mem_singleton.2 (hstamp hsize)

theorem Appended.sound {stamp : Stamp} {values : List FieldValue} {answer : Except Error Handle}
    (ha : s.Appended nid stamp values answer t) (hs : s.Sound) : t.Sound := by
  have hg := ha.tablesGrow
  cases ha with
  | refused e => exact hs
  | @drafted h payload hget hp hu =>
    refine hs.put hg rfl ?_
    have hsupports := (hs.supports hget).grow hg
    refine hsupports.slots fun draft hd => ?_
    rcases List.mem_append.1 hd with hd | hd
    · exact hsupports.pending draft hd
    · obtain rfl := Slot.pending.inj (List.mem_singleton.1 hd)
      exact (declares_of_payloadFor hp).grow hg
  | @committed h payload seq stamps hget hp hu ho hi =>
    refine hs.put hg rfl ?_
    have hsupports := (hs.supports hget).grow hg
    refine hsupports.concat ((declares_of_payloadFor hp).grow hg)
      (StampTable.stamp_of_intern hs.coherent hi) ho fun draft hd => ?_
    rcases List.mem_append.1 hd with hd | hd
    · exact hsupports.pending draft hd
    · cases List.mem_singleton.1 hd

theorem Updated.sound {handle : Handle} {values : List FieldValue} {answer : Except Error Unit}
    (hu : s.Updated handle values answer t) (hs : s.Sound) : t.Sound := by
  have hg := hu.tablesGrow
  cases hu with
  | refused e => exact hs
  | @replaced h payload draft hget hp hslot =>
    refine hs.put hg rfl ?_
    have hsupports := (hs.supports hget).grow hg
    refine hsupports.slots fun draft hd => ?_
    rcases List.mem_or_eq_of_mem_set hd with hd | hd
    · exact hsupports.pending draft hd
    · obtain rfl := Slot.pending.inj hd
      exact (declares_of_payloadFor hp).grow hg

theorem Committed.sound {handle : Handle} {time : Timestamp} {answer : Except Error StampSeq}
    (hc : s.Committed handle time answer t) (hs : s.Sound) : t.Sound := by
  have hg := hc.tablesGrow
  cases hc with
  | refused e => exact hs
  | @committed h draft seq stamps ht hget hslot ho hi =>
    refine hs.put hg rfl ?_
    have hsupports := (hs.supports hget).grow hg
    have hdraft := hsupports.pending draft (List.mem_of_getElem? hslot)
    refine hsupports.concat hdraft (StampTable.stamp_of_intern hs.coherent hi) ho
      fun draft hd => ?_
    rcases List.mem_or_eq_of_mem_set hd with hd | hd
    · exact hsupports.pending draft hd
    · cases hd

/-! ## Components -/

theorem schema_of_checkShape {shape : Shape} {assemblage : Nid}
    (hshape : s.checkShape shape = .ok ()) (ha : shape.assemblage? = some assemblage) :
    ∃ schema, s.schemas.get? assemblage = some schema := by
  cases shape with
  | concept => cases ha
  | semantic a referenced =>
    obtain rfl := Option.some.inj ha
    obtain ⟨schema, hschema, -⟩ := bind_eq_ok_iff.1 hshape
    exact ⟨schema, schema_eq_ok_iff.1 hschema⟩

theorem Registered.known {uuids : List Uuid} {shape : Shape} {identities : Identities}
    (hr : s.Registered uuids shape nid identities) (hc : s.identities.Consistent) :
    identities.Named nid ∧ ∃ seq, identities.kinds.get? nid = some (shape.kind, seq) := by
  obtain ⟨numbered, seq, hn, hk⟩ := hr.registered
  exact ⟨(Identities.growsTo_registerKind hk).named (hc.named_of_nidFor hn), seq,
    Identities.kinds_of_registerKind hk⟩

theorem Created.sound {uuids : List Uuid} {shape : Shape} {answer : Except Error Nid}
    (hc : s.Created uuids shape answer t) (hs : s.Sound) : t.Sound := by
  have hg := hc.tablesGrow
  cases hc with
  | refused e => exact hs
  | unregistered hn hk => exact hs.grow hg rfl
  | found hr hget hshape => exact hs.grow hg rfl
  | contradicted hr hget hshape => exact hs.grow hg rfl
  | @made nid identities hr hget =>
    obtain ⟨hnamed, hkind⟩ := hr.known hs.identities
    have hschema {assemblage} (ha : shape.assemblage? = some assemblage) :=
      (schema_of_checkShape hr.shape_ok ha).imp fun _ hd => hg.schemas hd
    exact hs.put hg rfl
      { named := hnamed
        kind := hkind
        schema := hschema
        committed := fun _ hv => absurd hv List.not_mem_nil
        pending := fun _ hd => absurd hd List.not_mem_nil
        stamps := fun _ _ hv => absurd hv List.not_mem_nil
        inOrder := .nil }

/-! ## Records -/

/-- The schema of a recorded semantic is declared, once it is installed. -/
theorem get?_schemasWith_of_recordedShape {r : Record.History} {shape : Shape}
    {schema : Option Schema} {assemblage : Nid} (hr : s.recordedShape r = .ok (shape, schema))
    (ha : shape.assemblage? = some assemblage) :
    ∃ declared, schema = some declared ∧
      (s.schemasWith shape schema).get? assemblage = some declared := by
  obtain ⟨-, ⟨rfl, -⟩ | ⟨a, referenced, declared, rfl, rfl, hg⟩⟩ := recordedShape_eq_ok hr
  · cases ha
  · obtain rfl := Option.some.inj ha
    refine ⟨declared, rfl, ?_⟩
    rcases hg with hg | hg
    · simp [schemasWith, hg]
    · simp [schemasWith, hg]

theorem declares_of_recordedPayload {r : Record.History} {shape : Shape} {schema : Option Schema}
    {octets : List UInt8} {payload : Payload} (hr : s.recordedShape r = .ok (shape, schema))
    (ht : t.schemas = s.schemasWith shape schema)
    (hp : recordedPayload nid schema octets = .ok payload) : t.Declares shape payload := by
  unfold recordedPayload at hp
  cases shape with
  | concept =>
    obtain ⟨-, ⟨-, rfl⟩ | ⟨_, _, _, hshape, -⟩⟩ := recordedShape_eq_ok hr
    · dsimp only at hp
      split at hp
      · exact (Except.ok.inj hp).symm
      · cases hp
    · cases hshape
  | semantic assemblage referenced =>
    obtain ⟨declared, rfl, hg⟩ := get?_schemasWith_of_recordedShape hr rfl
    dsimp only at hp
    cases hf : FieldTuple.ofOctets declared octets with
    | error e =>
      rw [hf] at hp
      cases hp
    | ok tuple =>
      rw [hf] at hp
      exact ⟨declared, tuple, ht ▸ hg, (Except.ok.inj hp).symm, (FieldTuple.fits_of_ofOctets hf).2⟩

theorem Imported.sound {octets : List UInt8} {answer : Except Error Nid}
    (hi : s.Imported octets answer t) (hs : s.Sound) : t.Sound := by
  have hg := hi.tablesGrow
  cases hi with
  | refused e => exact hs
  | contradicted hd hr hres => exact hs.grow hg rfl
  | @installed r h schema seq identities hd hr hres =>
    obtain ⟨hne, -, hnid, hshape, hreplay⟩ := recordedHistory_eq_ok hr
    have hrestored := Identities.restored s.identities r.nid r.uuids r.kind
    rw [hres] at hrestored
    obtain ⟨hnamed, hkind⟩ := hrestored.known hs.identities hne
    have hnone : Replayed s.stamps schema r.nid [] := replayed_nil
    obtain ⟨versions, hh, hv⟩ := hnone.of_replay hreplay
    have hcommitted : h.committed = versions := congrArg History.committed hh
    have hslots : h.slots = versions.map fun v => .committed v.seq := congrArg History.slots hh
    refine hs.put hg rfl
      { named := hnid ▸ hnamed
        kind := ⟨seq, ?_⟩
        schema := fun ha => ?_
        committed := fun v hm => ?_
        pending := fun draft hm => ?_
        stamps := fun _ v hm => hv.stamps v (hcommitted ▸ hm)
        inOrder := hcommitted ▸ hv.inOrder }
    · rw [hnid, (recordedShape_eq_ok hshape).1]
      exact hkind
    · obtain ⟨declared, -, hget⟩ := get?_schemasWith_of_recordedShape hshape ha
      exact ⟨declared, hget⟩
    · obtain ⟨octets, hp⟩ := hv.payloads v (hcommitted ▸ hm)
      exact declares_of_recordedPayload hshape rfl hp
    · -- a replayed history has no drafts
      rw [hslots, List.mem_map] at hm
      obtain ⟨v, -, hv⟩ := hm
      cases hv

/-! ## Operations -/

theorem sound_createPath (hs : s.Sound) (fresh : Uuid) (origins : List Origin) :
    ((createPath fresh origins).perform s).2.Sound := by
  have hc := (created s [fresh] .concept).sound hs
  rcases after_createPath s fresh origins with h | ⟨path, h⟩
  · rwa [h]
  · rw [h]
    exact hc.grow (tablesGrow_declarePath _ path origins)
      (keeps_declarePath _ path origins).histories

theorem Sound.after {op : Operation} (hs : s.Sound) (hop : op.Regular s) : (op.after s).Sound := by
  by_cases hreset : op = .reset
  · subst hreset
    exact sound_empty
  have hg := hop.tablesGrow hreset
  rw [Operation.after, Operation.perform] at hg ⊢
  -- where no history is put in place, growth of the tables is enough
  cases op with
  | create uuids shape => simpa [Operation.action] using (created s uuids shape).sound hs
  | createPath fresh origins => simpa [Operation.action] using sound_createPath hs fresh origins
  | defineAssemblage assemblage schema =>
    refine hs.grow hg ?_
    simpa [Operation.action] using (keeps_defineAssemblage s assemblage schema).histories
  | declarePath path origins =>
    refine hs.grow hg ?_
    simpa [Operation.action] using (keeps_declarePath s path origins).histories
  | append nid stamp values =>
    simpa [Operation.action] using (appended s nid stamp values).sound hs
  | updateDraft handle values => simpa [Operation.action] using (updated s handle values).sound hs
  | commit handle time => simpa [Operation.action] using (committed s handle time).sound hs
  | importStamps octets =>
    refine hs.grow hg ?_
    simpa [Operation.action] using (keeps_importStamps s octets).histories
  | importHistory octets => simpa [Operation.action] using (imported s octets).sound hs
  | rebuildIndex => exact hs.grow hg rfl
  | reset => exact absurd rfl hreset
  | toIdentities request => exact hs.grow hg rfl
  | toStamps request => exact hs.grow hg rfl
  | toLineage request => exact hs.grow hg rfl

/-- A store that regular operations make of the empty one. -/
inductive RegularlyReachable : Store → Prop
  | empty : RegularlyReachable empty
  | after {s : Store} {op : Operation} : RegularlyReachable s → op.Regular s →
      RegularlyReachable (op.after s)

theorem RegularlyReachable.reachable (hs : s.RegularlyReachable) : s.Reachable := by
  induction hs with
  | empty => exact ⟨[], rfl⟩
  | @after s op _ _ ih =>
    obtain ⟨ops, rfl⟩ := ih
    exact ⟨ops ++ [op], List.foldl_append⟩

theorem RegularlyReachable.sound (hs : s.RegularlyReachable) : s.Sound := by
  induction hs with
  | empty => exact sound_empty
  | after _ hop ih => exact ih.after hop

/-- So are all stores reached that operations of the store itself make. -/
theorem regularlyReachable_run {ops : List Operation} (hops : ∀ op ∈ ops, ∀ s, op.Regular s) :
    (empty.run ops).RegularlyReachable :=
  run_induction .empty fun op hop s hs => hs.after (hops op hop s)

end Bitemporal.Store
