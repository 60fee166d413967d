import Bitemporal.Proofs.Store.Operation
import Bitemporal.Proofs.Store.Outcomes

/-!
# What an operation changes

Of what a store holds, only the histories and the indices over them are looked at
here. Whatever operation is taken up, and however it ends, it does one of five
things to them (`Change`), unless it resets the store:

* it leaves both as they are, which is what every refused operation does, and every
  one that goes to the identities, the stamps, the paths or the schemas alone;
* it adds the history of a component that had none, and files all of it;
* it changes the slots of a history, and files nothing;
* it puts a version at the end of a history, not earlier than the one before, and
  files the version;
* it leaves the histories and makes the indices anew.

That there is nothing else is `Operation.change`. What is to hold of histories and
indices after all operations has to be shown for these five cases.
-/

namespace Bitemporal.Store

variable {s t u : Store}

/-- The histories and the indices of two stores are the same. -/
structure Keeps (s t : Store) : Prop where
  histories : t.histories = s.histories
  index : t.index = s.index

/-- What is done to the histories and the indices of a store. -/
inductive Change (s t : Store) : Prop
  | kept : s.Keeps t → Change s t
  | added {h : History} : s.histories.get? h.nid = none →
      t.histories = s.histories.insert h.nid h → t.index = s.index.fileHistory h → Change s t
  | drafted {nid : Nid} {h : History} {slots : List Slot} : s.histories.get? nid = some h →
      t.histories = s.histories.insert nid { h with slots } → t.index = s.index → Change s t
  | committed {nid : Nid} {h : History} {slots : List Slot} {version : Version} :
      s.histories.get? nid = some h → h.checkOrder version.stamp.time = .ok () →
      t.histories = s.histories.insert nid
        { h with committed := h.committed ++ [version], slots } →
      t.index = s.index.fileVersion nid version → Change s t
  | rebuilt : t.histories = s.histories → t.index = s.rebuildIndex.index → Change s t

theorem Change.keeps (hc : s.Change t) (hk : t.Keeps u) : s.Change u := by
  obtain ⟨hh, hi⟩ := hk
  cases hc with
  | kept hk => exact .kept ⟨hh.trans hk.histories, hi.trans hk.index⟩
  | added hn ht hx => exact .added hn (hh.trans ht) (hi.trans hx)
  | drafted hg ht hx => exact .drafted hg (hh.trans ht) (hi.trans hx)
  | committed hg ho ht hx => exact .committed hg ho (hh.trans ht) (hi.trans hx)
  | rebuilt ht hx => exact .rebuilt (hh.trans ht) (hi.trans hx)

/-! ## Actions that leave the histories alone -/

theorem keeps_defineAssemblage (s : Store) (assemblage : Nid) (schema : Schema) :
    s.Keeps ((defineAssemblage assemblage schema).perform s).2 := by
  rcases after_defineAssemblage s assemblage schema with h | ⟨-, h⟩ <;> rw [h] <;>
    exact ⟨rfl, rfl⟩

theorem keeps_declarePath (s : Store) (path : Nid) (origins : List Origin) :
    s.Keeps ((declarePath path origins).perform s).2 := by
  obtain ⟨lineage, h⟩ := after_declarePath s path origins
  rw [h]
  exact ⟨rfl, rfl⟩

theorem keeps_importStamps (s : Store) (octets : List UInt8) :
    s.Keeps ((importStamps octets).perform s).2 := by
  rcases after_importStamps s octets with h | ⟨rows, h⟩ <;> rw [h] <;> exact ⟨rfl, rfl⟩

/-! ## Actions on histories -/

theorem Appended.change {nid : Nid} {stamp : Stamp} {values : List FieldValue}
    {answer : Except Error Handle} (ha : s.Appended nid stamp values answer t) : s.Change t := by
  cases ha with
  | refused e => exact .kept ⟨rfl, rfl⟩
  | drafted hg hp hu => exact .drafted hg rfl rfl
  | committed hg hp hu ho hi =>
    refine .committed hg ?_ rfl rfl
    exact ho

theorem Updated.change {handle : Handle} {values : List FieldValue} {answer : Except Error Unit}
    (hu : s.Updated handle values answer t) : s.Change t := by
  cases hu with
  | refused e => exact .kept ⟨rfl, rfl⟩
  | replaced hg hp hd => exact .drafted hg rfl rfl

theorem Committed.change {handle : Handle} {time : Timestamp} {answer : Except Error StampSeq}
    (hc : s.Committed handle time answer t) : s.Change t := by
  cases hc with
  | refused e => exact .kept ⟨rfl, rfl⟩
  | committed ht hg hd ho hi =>
    refine .committed hg ?_ rfl rfl
    exact ho

theorem Created.change {uuids : List Uuid} {shape : Shape} {answer : Except Error Nid}
    (hc : s.Created uuids shape answer t) : s.Change t := by
  cases hc with
  | refused e => exact .kept ⟨rfl, rfl⟩
  | unregistered hn hk => exact .kept ⟨rfl, rfl⟩
  | found hr hg hs => exact .kept ⟨rfl, rfl⟩
  | contradicted hr hg hs => exact .kept ⟨rfl, rfl⟩
  -- a history without versions is filed by its shape
  | @made nid _ hr hg => exact .added (h := { nid, shape }) hg rfl rfl

theorem Imported.change {octets : List UInt8} {answer : Except Error Nid}
    (hi : s.Imported octets answer t) : s.Change t := by
  cases hi with
  | refused e => exact .kept ⟨rfl, rfl⟩
  | contradicted hd hr hi => exact .kept ⟨rfl, rfl⟩
  | installed hd hr hi =>
    obtain ⟨-, hn, hnid, -⟩ := recordedHistory_eq_ok hr
    rw [← hnid] at hn
    refine .added hn ?_ rfl
    rw [hnid]

theorem change_createPath (s : Store) (fresh : Uuid) (origins : List Origin) :
    s.Change ((createPath fresh origins).perform s).2 := by
  have hc := (created s [fresh] .concept).change
  rcases after_createPath s fresh origins with h | ⟨path, h⟩
  · rwa [h]
  · rw [h]
    exact hc.keeps (keeps_declarePath _ path origins)

/-- An operation on a store that does not reset it. -/
theorem Operation.change {op : Operation} (hop : op ≠ .reset) (s : Store) :
    s.Change (op.after s) := by
  rw [after, perform]
  cases op with
  | create uuids shape => simpa [action] using (created s uuids shape).change
  | createPath fresh origins => simpa [action] using change_createPath s fresh origins
  | defineAssemblage assemblage schema =>
    simpa [action] using Change.kept (keeps_defineAssemblage s assemblage schema)
  | declarePath path origins => simpa [action] using Change.kept (keeps_declarePath s path origins)
  | append nid stamp values => simpa [action] using (appended s nid stamp values).change
  | updateDraft handle values => simpa [action] using (updated s handle values).change
  | commit handle time => simpa [action] using (committed s handle time).change
  | importStamps octets => simpa [action] using Change.kept (keeps_importStamps s octets)
  | importHistory octets => simpa [action] using (imported s octets).change
  | rebuildIndex => exact .rebuilt rfl rfl
  | reset => exact absurd rfl hop
  | toIdentities request => exact .kept ⟨rfl, rfl⟩
  | toStamps request => exact .kept ⟨rfl, rfl⟩
  | toLineage request => exact .kept ⟨rfl, rfl⟩

end Bitemporal.Store
