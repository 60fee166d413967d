import Bitemporal.Proofs.Store.Events
import Bitemporal.Store.Transfer
import Mathlib

/-!
# What is published of a store

Nothing that a store answers about its content tells of its drafts. What is left of it
without the slots of its histories is *published* (`Store.published`), and whoever reads the
store reads as much of what is published: the lists of commits, the indices, also if they are
made anew, the records, and what any viewpoint sees (`Store.map_history_published` and the
lemmas around it).

A draft that is appended or given other values changes slots only, so it leaves what is
published as it is (`Store.published_after_draft`), and so it leaves all answers.
-/

namespace Bitemporal

/-- What is published of a history: all of it but the slots. -/
def History.published (h : History) : History :=
  { h with slots := [] }

namespace Store

variable {s t : Store} {n nid : Nid} {h : History}

/-- What is published of a store: all of it but the slots of its histories. -/
def published (s : Store) : Store :=
  { s with histories := s.histories.map History.published }

/-! ## Readers -/

theorem get?_published (s : Store) (n : Nid) :
    s.published.histories.get? n = (s.histories.get? n).map History.published :=
  Table.get?_map ..

theorem history_published (s : Store) (n : Nid) :
    s.published.history n = (s.history n).map History.published := by
  rw [history, history, get?_published]
  cases s.histories.get? n <;> rfl

theorem components_published (s : Store) : s.published.components = s.components :=
  Table.keys_map ..

/-- Indices that are made anew are those of the commits. -/
theorem rebuildIndex_published (s : Store) :
    s.published.rebuildIndex.index = s.rebuildIndex.index := by
  show (s.histories.entries.map fun e => (e.1, e.2.published)).foldl _ _ = _
  rw [List.foldl_map]
  rfl

theorem exportHistory_published (s : Store) (n : Nid) :
    s.published.exportHistory n = s.exportHistory n := by
  have hrecord : s.published.recordOf n = s.recordOf n := by
    rw [recordOf, recordOf, history_published]
    cases s.history n <;> rfl
  rw [exportHistory, exportHistory, hrecord]

/-- What does not look at slots answers for a component what it answers for what is published
    of it. -/
theorem map_history_published {α : Type} {f : History → α} (hf : ∀ h, f h.published = f h)
    (s : Store) (n : Nid) : (s.published.history n).map f = (s.history n).map f := by
  rw [history_published]
  cases s.history n with
  | error e => rfl
  | ok h => exact congrArg Except.ok (hf h)

/-! ## Drafts -/

/-- The operations that leave nothing but a draft: one is appended, or given other values. -/
inductive Operation.Drafts : Operation → Prop
  | append {nid : Nid} {stamp : Stamp} {values : List FieldValue} :
      stamp.isUncommitted = true → Drafts (.append nid stamp values)
  | updateDraft (handle : Handle) (values : List FieldValue) : Drafts (.updateDraft handle values)

/-- Other slots of a history are not published. -/
theorem published_insert_slots (hget : s.histories.get? nid = some h) (slots : List Slot) :
    { s with histories := s.histories.insert nid { h with slots } }.published = s.published := by
  have hsame : (s.histories.map History.published).insert nid h.published =
      s.histories.map History.published := by
    refine Table.insert_eq_self ?_
    rw [Table.get?_map, hget]
    rfl
  show { s with histories := (s.histories.insert nid { h with slots }).map _ } = s.published
  rw [Table.map_insert]
  show { s with histories := (s.histories.map History.published).insert nid h.published } = _
  rw [hsame]
  rfl

/-- Drafts are not published, and neither are refusals. -/
theorem published_after_draft {op : Operation} (hop : op.Drafts) (s : Store) :
    (op.after s).published = s.published := by
  rcases hop with @⟨nid, stamp, values, hu⟩ | ⟨handle, values⟩
  · obtain ⟨answer, -, ha⟩ := Operation.exists_appended s nid stamp values
    generalize (Operation.append nid stamp values).after s = t at ha ⊢
    rcases ha with _ | ⟨hget, -, -⟩ | ⟨-, -, hc, -, -⟩
    · rfl
    · exact published_insert_slots hget _
    · rw [hc] at hu
      cases hu
  · obtain ⟨answer, -, hupdated⟩ := Operation.exists_updated s handle values
    generalize (Operation.updateDraft handle values).after s = t at hupdated ⊢
    rcases hupdated with _ | ⟨hget, -, -⟩
    · rfl
    · exact published_insert_slots hget _

end Store

end Bitemporal
