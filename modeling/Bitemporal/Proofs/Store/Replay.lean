import Bitemporal.Proofs.History
import Bitemporal.Proofs.Store.Outcomes

/-!
# Replayed histories

A history that is replayed from a record has committed versions only: they carry what the
record says, under the stamps that the table has for their numbers, and they are in order
(`Replayed`, `Replayed.of_replay`). Conversely, versions of which all this holds are
replayed from their numbers and octets (`replay_rows`).
-/

namespace Bitemporal.Store

variable {stamps : StampTable} {schema : Option Schema} {nid : Nid} {shape : Shape}

/-- The history of committed versions alone. -/
def committedHistory (nid : Nid) (shape : Shape) (versions : List Version) : History where
  nid
  shape
  committed := versions
  slots := versions.map fun v => .committed v.seq

theorem committedHistory_concat (versions : List Version) (version : Version) :
    committedHistory nid shape (versions ++ [version]) =
      { committedHistory nid shape versions with
        committed := versions ++ [version]
        slots := (committedHistory nid shape versions).slots ++ [.committed version.seq] } := by
  simp [committedHistory]

/-- Versions are in order, have the stamps that their numbers stand for, and carry what
    can be recorded. -/
structure Replayed (stamps : StampTable) (schema : Option Schema) (nid : Nid)
    (versions : List Version) : Prop where
  stamps : ∀ v ∈ versions, stamps.stamp v.seq = .ok v.stamp
  payloads : ∀ v ∈ versions, ∃ octets, recordedPayload nid schema octets = .ok v.payload
  inOrder : History.InOrder versions

theorem replayed_nil : Replayed stamps schema nid [] where
  stamps _ hv := absurd hv List.not_mem_nil
  payloads _ hv := absurd hv List.not_mem_nil
  inOrder := .nil

/-- One version is replayed. -/
theorem replay_cons_eq_ok {versions : List Version} {row : Record.VersionRow}
    {rows : List Record.VersionRow} {h : History}
    (hr : replay stamps schema (committedHistory nid shape versions) (row :: rows) = .ok h) :
    ∃ version, version.seq = row.seq ∧ stamps.stamp row.seq = .ok version.stamp ∧
      recordedPayload nid schema row.payload = .ok version.payload ∧
      (committedHistory nid shape versions).checkOrder version.stamp.time = .ok () ∧
      replay stamps schema (committedHistory nid shape (versions ++ [version])) rows = .ok h := by
  obtain ⟨stamp, hstamp, hr⟩ := bind_eq_ok_iff.1 hr
  obtain ⟨payload, hpayload, hr⟩ := bind_eq_ok_iff.1 hr
  obtain ⟨⟨slot, h₁⟩, ha, hr⟩ := bind_eq_ok_iff.1 hr
  obtain ⟨⟨⟩, ho, ha⟩ := bind_eq_ok_iff.1 ha
  obtain ⟨-, rfl⟩ := Prod.mk.inj (pure_eq_ok_iff.1 ha)
  refine ⟨⟨stamp, row.seq, payload⟩, rfl, hstamp, hpayload, ho, ?_⟩
  rw [committedHistory_concat]
  exact hr

theorem Replayed.of_replay {versions : List Version} {rows : List Record.VersionRow} {h : History}
    (hv : Replayed stamps schema nid versions)
    (hr : replay stamps schema (committedHistory nid shape versions) rows = .ok h) :
    ∃ all, h = committedHistory nid shape all ∧ Replayed stamps schema nid all := by
  induction rows generalizing versions with
  | nil => exact ⟨versions, (Except.ok.inj hr).symm, hv⟩
  | cons row rows ih =>
    obtain ⟨version, hseq, hstamp, hpayload, ho, hr⟩ := replay_cons_eq_ok hr
    have hv' : Replayed stamps schema nid (versions ++ [version]) := by
      refine ⟨List.forall_mem_append.2 ⟨hv.stamps, ?_⟩,
        List.forall_mem_append.2 ⟨hv.payloads, ?_⟩, hv.inOrder.concat ho⟩
      · exact List.forall_mem_singleton.2 (hseq ▸ hstamp)
      · exact List.forall_mem_singleton.2 ⟨_, hpayload⟩
    exact ih hv' hr

/-- The row of a version in a record. -/
def versionRow (v : Version) : Record.VersionRow :=
  { seq := v.seq, payload := v.payload.octets }

/-- Versions are replayed from their rows. -/
theorem replay_rows {before later : List Version}
    (hstamps : ∀ v ∈ later, stamps.stamp v.seq = .ok v.stamp)
    (hpayloads : ∀ v ∈ later, recordedPayload nid schema v.payload.octets = .ok v.payload)
    (hin : History.InOrder (before ++ later)) :
    replay stamps schema (committedHistory nid shape before) (later.map versionRow) =
      .ok (committedHistory nid shape (before ++ later)) := by
  -- the versions replayed so far are all those before, so they are what the order is checked by
  induction later generalizing before with
  | nil =>
    rw [List.append_nil]
    rfl
  | cons v later ih =>
    have hin' : History.InOrder ((before ++ [v]) ++ later) := by rwa [List.append_assoc]
    obtain ⟨hbefore, hle⟩ := History.inOrder_concat.1 (List.pairwise_append.1 hin').1
    have ho : (committedHistory nid shape before).checkOrder v.stamp.time = .ok () :=
      (History.checkOrder_eq_ok_iff hbefore).2 hle
    have hstep : replay stamps schema (committedHistory nid shape before)
        ((v :: later).map versionRow) =
        replay stamps schema (committedHistory nid shape (before ++ [v]))
          (later.map versionRow) := by
      show (stamps.stamp v.seq >>= _) = _
      rw [hstamps v List.mem_cons_self]
      show (recordedPayload nid schema v.payload.octets >>= _) = _
      rw [hpayloads v List.mem_cons_self]
      show ((committedHistory nid shape before).appendCommitted v >>= _) = _
      rw [appendCommitted_eq ho, committedHistory_concat]
      rfl
    rw [hstep, ih (fun w hw => hstamps w (List.mem_cons_of_mem _ hw))
      (fun w hw => hpayloads w (List.mem_cons_of_mem _ hw)) hin', List.append_assoc]
    rfl

end Bitemporal.Store
