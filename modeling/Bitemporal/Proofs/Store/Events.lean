import Bitemporal.Proofs.Field.Access
import Bitemporal.Proofs.Store.Past
import Bitemporal.Proofs.Table

/-!
# What is accepted for a component

Of all that a run does, the versions of a component are touched by three kinds of
operations only: by those that append a version, give a draft other values, or commit a
draft, and only by those of them that name the component and are answered. What they
accept is an `Event`, and it is told by the operation and its answer alone
(`Operation.eventOf?`). The events of a component along a run are `Store.events`.

An event is taken by a history in one of four ways (`History.Takes`). If an operation has
no event for a component, it leaves the history of the component as it is
(`Operation.follows`).
-/

namespace Bitemporal

/-- The values of the fields that a version carries. -/
def Payload.values : Payload → Except Error (List FieldValue)
  | .bare => .ok []
  | .fields tuple => tuple.values

/-- What is accepted for a component. -/
inductive Event where
  | appended (handle : Handle) (stamp : Stamp) (values : List FieldValue)
  | updated (slot : UInt32) (values : List FieldValue)
  | committed (slot : UInt32) (time : Timestamp)

/-! ## Histories that take an event -/

/-- How a history takes an event. -/
inductive History.Takes (n : Nid) (h : History) : Event → History → Prop
  | drafted {stamp : Stamp} {payload : Payload} {values : List FieldValue} :
      stamp.isUncommitted = true → payload.values = .ok values →
      Takes n h (.appended ⟨n, h.nextSlot⟩ stamp values)
        { h with slots := h.slots ++ [.pending { stamp, payload }] }
  | appended {stamp : Stamp} {seq : StampSeq} {payload : Payload} {values : List FieldValue} :
      stamp.isUncommitted = false → payload.values = .ok values →
      Takes n h (.appended ⟨n, h.nextSlot⟩ stamp values)
        { h with
          committed := h.committed ++ [{ stamp, seq, payload }]
          slots := h.slots ++ [.committed seq] }
  | replaced {slot : UInt32} {draft : Draft} {payload : Payload} {values : List FieldValue} :
      h.slots[slot.toNat]? = some (.pending draft) → payload.values = .ok values →
      Takes n h (.updated slot values)
        { h with slots := h.slots.set slot.toNat (.pending { draft with payload }) }
  | settled {slot : UInt32} {draft : Draft} {time : Timestamp} {seq : StampSeq} :
      h.slots[slot.toNat]? = some (.pending draft) →
      Takes n h (.committed slot time)
        { h with
          committed :=
            h.committed ++ [{ stamp := draft.stamp.withTime time, seq, payload := draft.payload }]
          slots := h.slots.set slot.toNat (.committed seq) }

/-- What becomes of a history with an event, and without one. -/
def History.Follows (n : Nid) (h : History) : Option Event → History → Prop
  | none, h' => h' = h
  | some event, h' => h.Takes n event h'

namespace Store

variable {s t : Store} {n nid : Nid} {h : History} {event : Event}

/-! ## Operations and their events -/

namespace Operation

/-- The component whose versions an operation is about. -/
def target? : Operation → Option Nid
  | append nid _ _ => some nid
  | updateDraft handle _ => some handle.nid
  | commit handle _ => some handle.nid
  | _ => none

/-- What an operation with its answer accepts. -/
def event? : Operation → Except Error Reply → Option Event
  | append _ stamp values, .ok (.version handle) => some (.appended handle stamp values)
  | updateDraft handle values, .ok _ => some (.updated handle.slot values)
  | commit handle time, .ok _ => some (.committed handle.slot time)
  | _, _ => none

/-- What an operation with its answer accepts for a component. -/
def eventOf? (n : Nid) (op : Operation) (answer : Except Error Reply) : Option Event :=
  if op.target? = some n then op.event? answer else none

/-- What is refused is no event. -/
theorem eventOf?_refused (op : Operation) (e : Error) : op.eventOf? n (.error e) = none := by
  rw [eventOf?]
  cases op <;> simp [event?]

theorem follows_refused {op : Operation} (h : History) (e : Error) :
    h.Follows n (op.eventOf? n (.error e)) h := by
  rw [eventOf?_refused]
  rfl

end Operation

theorem values_of_payloadFor {values : List FieldValue} {payload : Payload}
    (hp : s.payloadFor h values = .ok payload) : payload.values = .ok values := by
  rw [payloadFor] at hp
  split at hp
  · split at hp
    · next hempty =>
      obtain rfl := Except.ok.inj hp
      rw [List.isEmpty_iff.1 hempty]
      rfl
    · cases hp
  · obtain ⟨schema, -, hp⟩ := bind_eq_ok_iff.1 hp
    obtain ⟨tuple, htuple, hp⟩ := bind_eq_ok_iff.1 hp
    obtain rfl := pure_eq_ok_iff.1 hp
    exact FieldTuple.values_of_ofValues htuple

/-- The history that is put in place takes an event, and no other does. -/
theorem follows_insert {k k' : History} (hk : s.histories.get? nid = some k)
    (htakes : k.Takes nid event k') (hget : s.histories.get? n = some h) :
    ∃ h', (s.histories.insert nid k').get? n = some h' ∧
      h.Follows n (if nid = n then some event else none) h' := by
  rw [Table.get?_insert]
  by_cases hn : nid = n
  · subst hn
    obtain rfl : k = h := Option.some.inj (hk.symm.trans hget)
    exact ⟨k', if_pos rfl, by rwa [if_pos rfl]⟩
  · refine ⟨h, by rw [if_neg hn, hget], ?_⟩
    rw [if_neg hn]
    rfl

theorem Appended.follows {stamp : Stamp} {values : List FieldValue}
    {answer : Except Error Handle} (ha : s.Appended nid stamp values answer t)
    (hget : s.histories.get? n = some h) :
    ∃ h', t.histories.get? n = some h' ∧
      h.Follows n ((Operation.append nid stamp values).eventOf? n (answer.map .version)) h' := by
  cases ha with
  | refused e => exact ⟨h, hget, Operation.follows_refused h e⟩
  | drafted hk hp hu =>
    simpa [Operation.eventOf?, Operation.target?, Operation.event?, Except.map,
      History.appendDraft] using follows_insert hk (.drafted hu (values_of_payloadFor hp)) hget
  | committed hk hp hu ho hi =>
    simpa [Operation.eventOf?, Operation.target?, Operation.event?, Except.map] using
      follows_insert hk (.appended hu (values_of_payloadFor hp)) hget

theorem Updated.follows {handle : Handle} {values : List FieldValue} {answer : Except Error Unit}
    (hu : s.Updated handle values answer t) (hget : s.histories.get? n = some h) :
    ∃ h', t.histories.get? n = some h' ∧
      h.Follows n ((Operation.updateDraft handle values).eventOf? n
        (answer.map fun _ => .done)) h' := by
  cases hu with
  | refused e => exact ⟨h, hget, Operation.follows_refused h e⟩
  | replaced hk hp hslot =>
    simpa [Operation.eventOf?, Operation.target?, Operation.event?, Except.map] using
      follows_insert hk (.replaced hslot (values_of_payloadFor hp)) hget

theorem Committed.follows {handle : Handle} {time : Timestamp} {answer : Except Error StampSeq}
    (hc : s.Committed handle time answer t) (hget : s.histories.get? n = some h) :
    ∃ h', t.histories.get? n = some h' ∧
      h.Follows n ((Operation.commit handle time).eventOf? n (answer.map .stamp)) h' := by
  cases hc with
  | refused e => exact ⟨h, hget, Operation.follows_refused h e⟩
  | committed ht hk hslot ho hi =>
    simpa [Operation.eventOf?, Operation.target?, Operation.event?, Except.map] using
      follows_insert hk (.settled hslot) hget

/-! ## Answers of operations on versions -/

/-- An operation on versions comes to what its action does. -/
theorem Operation.exists_appended (s : Store) (nid : Nid) (stamp : Stamp)
    (values : List FieldValue) :
    ∃ answer, ((append nid stamp values).perform s).1 = answer.map .version ∧
      s.Appended nid stamp values answer ((append nid stamp values).after s) := by
  refine ⟨((Store.append nid stamp values).perform s).1, ?_, ?_⟩
  · rw [perform, action, Action.perform_map]
  · rw [after, perform, action, Action.perform_map]
    exact appended s nid stamp values

theorem Operation.exists_updated (s : Store) (handle : Handle) (values : List FieldValue) :
    ∃ answer, ((updateDraft handle values).perform s).1 = answer.map (fun _ => .done) ∧
      s.Updated handle values answer ((updateDraft handle values).after s) := by
  refine ⟨((Store.updateDraft handle values).perform s).1, ?_, ?_⟩
  · rw [perform, action, Action.perform_map]
  · rw [after, perform, action, Action.perform_map]
    exact updated s handle values

theorem Operation.exists_committed (s : Store) (handle : Handle) (time : Timestamp) :
    ∃ answer, ((commit handle time).perform s).1 = answer.map .stamp ∧
      s.Committed handle time answer ((commit handle time).after s) := by
  refine ⟨((Store.commit handle time).perform s).1, ?_, ?_⟩
  · rw [perform, action, Action.perform_map]
  · rw [after, perform, action, Action.perform_map]
    exact committed s handle time

theorem Operation.appended_of_answer {stamp : Stamp} {values : List FieldValue} {handle : Handle}
    (hanswer : ((append nid stamp values).perform s).1 = .ok (.version handle)) :
    s.Appended nid stamp values (.ok handle) ((append nid stamp values).after s) := by
  obtain ⟨answer, heq, ha⟩ := exists_appended s nid stamp values
  rw [hanswer] at heq
  cases answer with
  | error e => cases heq
  | ok handle' =>
    cases heq
    exact ha

theorem Operation.updated_of_answer {handle : Handle} {values : List FieldValue} {reply : Reply}
    (hanswer : ((updateDraft handle values).perform s).1 = .ok reply) :
    s.Updated handle values (.ok ()) ((updateDraft handle values).after s) := by
  obtain ⟨answer, heq, hu⟩ := exists_updated s handle values
  rw [hanswer] at heq
  cases answer with
  | error e => cases heq
  | ok u => exact hu

theorem Operation.committed_of_answer {handle : Handle} {time : Timestamp} {seq : StampSeq}
    (hanswer : ((commit handle time).perform s).1 = .ok (.stamp seq)) :
    s.Committed handle time (.ok seq) ((commit handle time).after s) := by
  obtain ⟨answer, heq, hc⟩ := exists_committed s handle time
  rw [hanswer] at heq
  cases answer with
  | error e => cases heq
  | ok seq' =>
    cases heq
    exact hc

/-! ## Other operations -/

theorem Created.keeps_history {uuids : List Uuid} {shape : Shape} {answer : Except Error Nid}
    (hc : s.Created uuids shape answer t) (hget : s.histories.get? n = some h) :
    t.histories.get? n = some h := by
  cases hc with
  | refused e => exact hget
  | unregistered hn hk => exact hget
  | found hr hk hshape => exact hget
  | contradicted hr hk hshape => exact hget
  | made hr hnone => exact Table.get?_insert_of_absent hnone hget

theorem Imported.keeps_history {octets : List UInt8} {answer : Except Error Nid}
    (hi : s.Imported octets answer t) (hget : s.histories.get? n = some h) :
    t.histories.get? n = some h := by
  cases hi with
  | refused e => exact hget
  | contradicted hd hr hres => exact hget
  | installed hd hr hres =>
    obtain ⟨-, hnone, -⟩ := recordedHistory_eq_ok hr
    exact Table.get?_insert_of_absent hnone hget

theorem histories_createPath (s : Store) (fresh : Uuid) (origins : List Origin) :
    ((createPath fresh origins).perform s).2.histories =
      ((create [fresh] .concept).perform s).2.histories := by
  rcases after_createPath s fresh origins with h | ⟨path, h⟩
  · rw [h]
  · rw [h]
    exact (keeps_declarePath _ path origins).histories

/-- A history becomes after an operation what its event says, and stays if there is none. -/
theorem Operation.follows {op : Operation} (hop : op ≠ .reset)
    (hget : s.histories.get? n = some h) :
    ∃ h', (op.after s).histories.get? n = some h' ∧
      h.Follows n (op.eventOf? n (op.perform s).1) h' := by
  rw [after, perform]
  -- only the first three have events; the others must leave the history alone
  cases op with
  | append nid stamp values => simpa [action] using (appended s nid stamp values).follows hget
  | updateDraft handle values => simpa [action] using (updated s handle values).follows hget
  | commit handle time => simpa [action] using (committed s handle time).follows hget
  | create uuids shape =>
    refine ⟨h, ?_, rfl⟩
    simpa [action] using (created s uuids shape).keeps_history hget
  | createPath fresh origins =>
    refine ⟨h, ?_, rfl⟩
    simpa [action, histories_createPath] using
      (created s [fresh] .concept).keeps_history hget
  | importHistory octets =>
    refine ⟨h, ?_, rfl⟩
    simpa [action] using (imported s octets).keeps_history hget
  | defineAssemblage assemblage schema =>
    refine ⟨h, ?_, rfl⟩
    simpa [action, (keeps_defineAssemblage s assemblage schema).histories] using hget
  | declarePath path origins =>
    refine ⟨h, ?_, rfl⟩
    simpa [action, (keeps_declarePath s path origins).histories] using hget
  | importStamps octets =>
    refine ⟨h, ?_, rfl⟩
    simpa [action, (keeps_importStamps s octets).histories] using hget
  | reset => exact absurd rfl hop
  | rebuildIndex => exact ⟨h, hget, rfl⟩
  | toIdentities request => exact ⟨h, hget, rfl⟩
  | toStamps request => exact ⟨h, hget, rfl⟩
  | toLineage request => exact ⟨h, hget, rfl⟩

/-! ## Components that are not there yet -/

theorem Appended.present {stamp : Stamp} {values : List FieldValue} {handle : Handle}
    (ha : s.Appended nid stamp values (.ok handle) t) : ∃ h, s.histories.get? nid = some h := by
  cases ha with
  | drafted hk hp hu => exact ⟨_, hk⟩
  | committed hk hp hu ho hi => exact ⟨_, hk⟩

theorem Updated.present {handle : Handle} {values : List FieldValue}
    (hu : s.Updated handle values (.ok ()) t) : ∃ h, s.histories.get? handle.nid = some h := by
  cases hu with
  | replaced hk hp hslot => exact ⟨_, hk⟩

theorem Committed.present {handle : Handle} {time : Timestamp} {seq : StampSeq}
    (hc : s.Committed handle time (.ok seq) t) : ∃ h, s.histories.get? handle.nid = some h := by
  cases hc with
  | committed ht hk hslot ho hi => exact ⟨_, hk⟩

/-- An operation on versions is not answered if the component is not there. -/
theorem Operation.present {op : Operation} {reply : Reply} (htarget : op.target? = some n)
    (hok : (op.perform s).1 = .ok reply) : ∃ h, s.histories.get? n = some h := by
  cases op with
  | append nid stamp values =>
    obtain rfl := Option.some.inj htarget
    obtain ⟨answer, hanswer, ha⟩ := exists_appended s nid stamp values
    rw [hanswer] at hok
    cases answer with
    | error e => cases hok
    | ok handle => exact ha.present
  | updateDraft handle values =>
    obtain rfl := Option.some.inj htarget
    exact (updated_of_answer hok).present
  | commit handle time =>
    obtain rfl := Option.some.inj htarget
    obtain ⟨answer, hanswer, hc⟩ := exists_committed s handle time
    rw [hanswer] at hok
    cases answer with
    | error e => cases hok
    | ok seq => exact hc.present
  | _ => cases htarget

/-- An operation makes a component. -/
structure Operation.Creates (op : Operation) (n : Nid) (s : Store) : Prop where
  creating : (∃ uuids shape, op = .create uuids shape) ∨
    ∃ fresh origins, op = .createPath fresh origins
  absent : s.contains n = false
  present : (op.after s).contains n = true

theorem Created.get?_of_absent {uuids : List Uuid} {shape : Shape} {answer : Except Error Nid}
    (hc : s.Created uuids shape answer t) (hs : s.histories.get? n = none)
    (ht : t.contains n = true) : t.histories.get? n = some { nid := n, shape } := by
  have hget : t.histories.get? n ≠ none := fun hnone => by
    rw [contains_eq_false_iff.2 hnone] at ht
    cases ht
  cases hc with
  | refused e => exact absurd hs hget
  | unregistered hn hk => exact absurd hs hget
  | found hr hk hshape => exact absurd hs hget
  | contradicted hr hk hshape => exact absurd hs hget
  | @made nid identities hr hnone =>
    by_cases hn : nid = n
    · subst hn
      exact Table.get?_insert_self ..
    · rw [Table.get?_insert_of_ne _ _ hn] at hget
      exact absurd hs hget

/-- A component is made without versions. -/
theorem Operation.Creates.get? {op : Operation} (hc : op.Creates n s) :
    ∃ shape, (op.after s).histories.get? n = some { nid := n, shape } := by
  have hs := contains_eq_false_iff.1 hc.absent
  have ht := hc.present
  rw [after, perform] at ht ⊢
  obtain ⟨uuids, shape, rfl⟩ | ⟨fresh, origins, rfl⟩ := hc.creating
  · refine ⟨shape, ?_⟩
    simpa [action] using (created s uuids shape).get?_of_absent hs (by simpa [action] using ht)
  · refine ⟨.concept, ?_⟩
    have ht' : ((Store.create [fresh] .concept).perform s).2.contains n = true := by
      simpa [action, contains, histories_createPath] using ht
    simpa [action, histories_createPath] using
      (created s [fresh] .concept).get?_of_absent hs ht'

end Store

end Bitemporal
