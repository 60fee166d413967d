import Bitemporal.Proofs.Identities.Ownership
import Bitemporal.Proofs.Store.Locality

/-!
# What operations ask of identities

Whatever an operation does to the identities of a store, it does by requests to them. So
identities before an operation lead to those after it by requests (`Operation.leadsTo`),
which are regular ones unless the operation goes to the identities alone. What is kept by
each regular request is thus kept by a run of the store, as long as the requests that go to
the identities alone are regular too (`Store.KeepsIdentities`): identifiers stay where they
are, numbers in use stay in use, and the counter stays ahead of them.
-/

namespace Bitemporal

namespace Identities

variable {ids ids' ids'' : Identities} {nid n : Nid} {uuids : List Uuid} {u : Uuid} {kind : Kind}

/-- Regular requests lead from identities to others. -/
inductive LeadsTo : Identities → Identities → Prop
  | refl (ids : Identities) : LeadsTo ids ids
  | step {ids ids' : Identities} {op : Operation} : op.Regular ids → LeadsTo (ids.after op) ids' →
      LeadsTo ids ids'

namespace LeadsTo

theorem trans (h : ids.LeadsTo ids') (h' : ids'.LeadsTo ids'') : ids.LeadsTo ids'' := by
  induction h with
  | refl ids => exact h'
  | step hop _ ih => exact .step hop (ih h')

theorem of_request (op : Operation) (hop : op.Regular ids) : ids.LeadsTo (ids.after op) :=
  .step hop (.refl _)

theorem of_nidFor (h : ids.nidFor uuids = .ok (nid, ids')) : ids.LeadsTo ids' := by
  have hafter : ids.after (.nidFor uuids) = ids' := by rw [after, h]
  exact hafter ▸ of_request (.nidFor uuids) trivial

theorem of_registerKind {seq : SequenceNumber} (h : ids.registerKind nid kind = .ok (seq, ids')) :
    ids.LeadsTo ids' := by
  have hafter : ids.after (.registerKind nid kind) = ids' := by rw [after, h]
  exact hafter ▸ of_request (.registerKind nid kind) trivial

theorem of_restore (ids : Identities) (nid : Nid) (uuids : List Uuid) (kind : Kind) :
    ids.LeadsTo (ids.restore nid uuids kind).2 :=
  of_request (.restore nid uuids kind) trivial

/-- What is kept by every regular request is kept by all of them. -/
theorem induction {P : Identities → Prop} (h : ids.LeadsTo ids') (hids : P ids)
    (hstep : ∀ ids (op : Operation), op.Regular ids → P ids → P (ids.after op)) : P ids' := by
  induction h with
  | refl ids => exact hids
  | step hop _ ih => exact ih (hstep _ _ hop hids)

end LeadsTo

theorem Operation.Regular.ne_reset {op : Operation} (h : op.Regular ids) : op ≠ .reset :=
  fun e => by rw [e] at h; exact h

theorem Renumbered.contains {op : Operation} (h : ids.Renumbered op ids')
    (hn : ids.contains n = true) : ids'.contains n = true := by
  cases h with
  | handedOut _ hu _ => exact (contains_insert hu).2 (.inr hn)
  | taken _ hu _ => exact (contains_insert hu).2 (.inr hn)
  | kept hu _ => rwa [Identities.contains, hu]

namespace LeadsTo

theorem contains (h : ids.LeadsTo ids') (hn : ids.contains n = true) : ids'.contains n = true :=
  h.induction (P := fun ids => ids.contains n = true) hn fun ids _ hop =>
    (renumbered_after hop.ne_reset ids).contains

theorem nidOf? (h : ids.LeadsTo ids') (hu : ids.nidOf? u = some n) : ids'.nidOf? u = some n :=
  h.induction (P := fun ids => ids.nidOf? u = some n) hu fun _ _ hop =>
    (rebound_after hop).nidOf?

theorem ahead (h : ids.LeadsTo ids') (ha : ids.Ahead) : ids'.Ahead :=
  h.induction ha fun ids _ hop => (renumbered_after hop.ne_reset ids).ahead

theorem consistent (h : ids.LeadsTo ids') (hc : ids.Consistent) : ids'.Consistent :=
  h.induction hc fun _ _ hop hc => hc.after hop

theorem growsTo (h : ids.LeadsTo ids') : ids.GrowsTo ids' :=
  h.induction (P := ids.GrowsTo) (.refl ids) fun ids' _ hop hg =>
    hg.trans (growsTo_after hop.ne_reset ids')

end LeadsTo

end Identities

namespace Store

open Bitemporal.Store.Action
open Identities (LeadsTo)

variable {s t : Store} {ops : List Operation}

/-! ## Operations -/

theorem Created.leadsTo {uuids : List Uuid} {shape : Shape} {answer : Except Error Nid}
    (h : s.Created uuids shape answer t) : s.identities.LeadsTo t.identities := by
  have hregistered {nid : Nid} {identities : Identities}
      (hr : s.Registered uuids shape nid identities) : s.identities.LeadsTo identities := by
    obtain ⟨numbered, seq, hn, hk⟩ := hr.registered
    exact (LeadsTo.of_nidFor hn).trans (LeadsTo.of_registerKind hk)
  cases h with
  | refused e => exact .refl _
  | unregistered hn hk => exact .of_nidFor hn
  | found hr hg hs => exact hregistered hr
  | contradicted hr hg hs => exact hregistered hr
  | made hr hg => exact hregistered hr

theorem Imported.leadsTo {octets : List UInt8} {answer : Except Error Nid}
    (h : s.Imported octets answer t) : s.identities.LeadsTo t.identities := by
  have hrestored {r : Record.History} {restored} {identities : Identities}
      (hi : s.identities.restore r.nid r.uuids r.kind = (restored, identities)) :
      s.identities.LeadsTo identities := by
    have hr := LeadsTo.of_restore s.identities r.nid r.uuids r.kind
    rwa [hi] at hr
  cases h with
  | refused e => exact .refl _
  | contradicted hd hr hi => exact hrestored hi
  | installed hd hr hi => exact hrestored hi

theorem identities_defineAssemblage (s : Store) (assemblage : Nid) (schema : Schema) :
    ((defineAssemblage assemblage schema).perform s).2.identities = s.identities := by
  rcases after_defineAssemblage s assemblage schema with h | ⟨-, h⟩ <;> rw [h]

theorem identities_declarePath (s : Store) (path : Nid) (origins : List Origin) :
    ((declarePath path origins).perform s).2.identities = s.identities := by
  obtain ⟨lineage, h⟩ := after_declarePath s path origins
  rw [h]

theorem identities_importStamps (s : Store) (octets : List UInt8) :
    ((importStamps octets).perform s).2.identities = s.identities := by
  rcases after_importStamps s octets with h | ⟨rows, h⟩ <;> rw [h]

theorem leadsTo_createPath (s : Store) (fresh : Uuid) (origins : List Origin) :
    s.identities.LeadsTo ((createPath fresh origins).perform s).2.identities := by
  have hc := (created s [fresh] .concept).leadsTo
  rcases after_createPath s fresh origins with h | ⟨path, h⟩
  · rwa [h]
  · rwa [h, identities_declarePath]

/-- A request that goes to the identities alone is regular. -/
def Operation.AsksRegularly (s : Store) : Operation → Prop
  | .toIdentities request => request.Regular s.identities
  | _ => True

/-- An operation leads by regular requests to the identities after it. -/
theorem Operation.leadsTo {op : Operation} (hop : op ≠ .reset) (hasks : op.AsksRegularly s) :
    s.identities.LeadsTo (op.after s).identities := by
  have hsame (h : (op.after s).identities = s.identities) :
      s.identities.LeadsTo (op.after s).identities := h ▸ .refl _
  have htouched (n : Nid) (htarget : op.target? = some n) :
      s.identities.LeadsTo (op.after s).identities :=
    hsame (op.touched htarget s).sameTables.identities
  rw [after, perform] at hsame ⊢
  cases op with
  | create uuids shape => simpa [action] using (created s uuids shape).leadsTo
  | createPath fresh origins => simpa [action] using leadsTo_createPath s fresh origins
  | importHistory octets => simpa [action] using (imported s octets).leadsTo
  | toIdentities request => exact .of_request request hasks
  | append nid stamp values => exact htouched nid rfl
  | updateDraft handle values => exact htouched handle.nid rfl
  | commit handle time => exact htouched handle.nid rfl
  | defineAssemblage assemblage schema =>
    exact hsame (by simp [action, identities_defineAssemblage])
  | declarePath path origins => exact hsame (by simp [action, identities_declarePath])
  | importStamps octets => exact hsame (by simp [action, identities_importStamps])
  | reset => exact absurd rfl hop
  | rebuildIndex => exact hsame rfl
  | toStamps request => exact hsame rfl
  | toLineage request => exact hsame rfl

/-! ## Runs -/

/-- In a run, the requests that go to the identities alone are regular: they are not reset
    behind the back of the store, and a number is handed out for new identifiers only. -/
def KeepsIdentities : Store → List Operation → Prop
  | _, [] => True
  | s, op :: ops => op.AsksRegularly s ∧ (op.after s).KeepsIdentities ops

namespace KeepsIdentities

theorem leadsTo (h : s.KeepsIdentities ops) (hreset : .reset ∉ ops) :
    s.identities.LeadsTo (s.run ops).identities := by
  induction ops generalizing s with
  | nil => exact .refl _
  | cons op ops ih =>
    rw [List.mem_cons, not_or] at hreset
    exact (Operation.leadsTo (Ne.symm hreset.1) h.1).trans (ih h.2 hreset.2)

/-- What holds of empty identities and is kept by regular requests holds all along a run. -/
theorem induction {P : Identities → Prop} (h : s.KeepsIdentities ops) (hs : P s.identities)
    (hempty : P .empty)
    (hstep : ∀ {ids ids' : Identities}, ids.LeadsTo ids' → P ids → P ids') :
    P (s.run ops).identities := by
  induction ops generalizing s with
  | nil => exact hs
  | cons op ops ih =>
    refine ih h.2 ?_
    by_cases hreset : op = .reset
    · subst hreset
      exact hempty
    · exact hstep (Operation.leadsTo hreset h.1) hs

/-- Neither are the identities reset alone. -/
theorem ne_reset (h : s.KeepsIdentities ops) : ∀ op ∈ ops, op ≠ .toIdentities .reset := by
  induction ops generalizing s with
  | nil => exact fun op hop => absurd hop List.not_mem_nil
  | cons op ops ih =>
    refine List.forall_mem_cons.2 ⟨?_, ih h.2⟩
    rintro rfl
    exact h.1

end KeepsIdentities

end Store

end Bitemporal
