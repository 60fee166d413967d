import Bitemporal.Proofs.StampTable.Restoring
import Bitemporal.Proofs.Store.Drafts
import Bitemporal.Proofs.Store.Interleaving
import Bitemporal.Proofs.Store.Transfer
import Mathlib

/-!
# When the words are used up

Stamps and slots are counted by lists and numbered by 32-bit words, and nothing stops a list
from growing beyond its words. What then happens is told here of stores of any size.

A component can be given any number of versions with different stamps (`filled_run`). The
version that is committed next has a number that stands for its stamp just as long as the
words suffice (`next_version_resolves_iff`), and for as long the stamps of the store can be
imported (`importStamps_spending_iff`). Likewise a component can be given any number of drafts
(`crowded_run`), and the handle of what is appended next leads to its own slot just as long as
the words suffice (`next_handle_leads_iff`): after that it leads to a draft from long ago.
-/

namespace Bitemporal.Store

open StampTable (stampAt stampsBefore ofStamps seqOfPlace)

variable {s : Store} {n : Nat}

theorem payloadFor_concept {h : History} (hshape : h.shape = .concept) (s : Store) :
    s.payloadFor h [] = .ok .bare := by
  rw [payloadFor, hshape]
  rfl

/-! ## Stamps -/

/-- Two concepts, and on the first of them versions with so many different stamps. -/
def filling (n : Nat) : List Operation :=
  [.create [.uniform 1] .concept, .create [.uniform 2] .concept] ++
    (stampsBefore n).map fun stamp => .append ⟨1⟩ stamp []

/-- The first component has versions without fields that were committed at the times of these
    stamps. -/
structure Series (n : Nat) (h : History) : Prop where
  shape : h.shape = .concept
  length : h.committed.length = n
  bare : ∀ v ∈ h.committed, v.payload = .bare
  last : ∀ last, h.lastTime? = some last → ∃ m < n, last = (stampAt m).time

/-- What is left of such a run. -/
structure Filled (n : Nat) (s : Store) : Prop where
  stamps : s.stamps = ofStamps (stampsBefore n)
  identities : s.identities = (empty.run (filling 0)).identities
  schemas : s.schemas = empty.schemas
  first : ∃ h, s.histories.get? ⟨1⟩ = some h ∧ Series n h
  second : s.histories.get? ⟨2⟩ = some { nid := ⟨2⟩, shape := .concept }
  others : ∀ k, k ≠ ⟨1⟩ → k ≠ ⟨2⟩ → s.histories.get? k = none

/-- A commit at the next time is in order. -/
theorem Series.checkOrder {h : History} (hh : Series n h) (hn : n < 2 ^ 63) :
    h.checkOrder (stampAt n).time = .ok () := by
  cases ho : h.checkOrder (stampAt n).time with
  | ok u => rfl
  | error e =>
    obtain ⟨last, hl, hlt, -⟩ := checkOrder_eq_error ho
    obtain ⟨m, hm, rfl⟩ := hh.last last hl
    rw [Timestamp.lt_iff, StampTable.toInt_time_stampAt hn,
      StampTable.toInt_time_stampAt (hm.trans hn)] at hlt
    omega

theorem Filled.intern (hs : s.Filled n) (hn : n + 1 < 2 ^ 63) :
    s.stamps.intern (stampAt n) = .ok (seqOfPlace n, ofStamps (stampsBefore (n + 1))) := by
  rw [hs.stamps, StampTable.intern_stampAt hn]

/-- One more version is appended to the first component. -/
theorem Filled.append (hs : s.Filled n) (hn : n + 1 < 2 ^ 63) :
    ((Operation.append ⟨1⟩ (stampAt n) []).after s).Filled (n + 1) := by
  obtain ⟨h, hget, hh⟩ := hs.first
  have hperform := perform_append hget (payloadFor_concept hh.shape s)
    (StampTable.isUncommitted_stampAt hn) (hh.checkOrder (by omega)) (hs.intern hn)
  rw [Operation.after, hperform]
  refine ⟨rfl, hs.identities, hs.schemas, ⟨_, Table.get?_insert_self .., hh.shape, ?_,
    fun v hv => ?_, fun last hl => ?_⟩, ?_, fun k hfirst hsecond => ?_⟩
  · rw [List.length_append, hh.length]
    rfl
  · rcases List.mem_append.1 hv with hold | hnew
    · exact hh.bare v hold
    · rw [List.mem_singleton.1 hnew]
  · refine ⟨n, Nat.lt_succ_self n, ?_⟩
    simpa [History.lastTime?, eq_comm] using hl
  · exact (Table.get?_insert_of_ne _ _ (by decide)).trans hs.second
  · exact (Table.get?_insert_of_ne _ _ (Ne.symm hfirst)).trans (hs.others k hfirst hsecond)

theorem filled_run (hn : n < 2 ^ 63) : (empty.run (filling n)).Filled n := by
  induction n with
  | zero =>
    refine ⟨rfl, rfl, rfl, ⟨_, rfl, rfl, rfl, fun v hv => ?_, fun last hl => ?_⟩, rfl,
      fun k hfirst hsecond => ?_⟩
    · cases hv
    · cases hl
    · have hkeys : (empty.run (filling 0)).histories.keys = [⟨1⟩, ⟨2⟩] := rfl
      refine Table.find?_eq_none_iff.2 fun hmem => ?_
      rw [← Table.keys, hkeys] at hmem
      simp [hfirst, hsecond] at hmem
  | succ n ih =>
    have hfilling : filling (n + 1) = filling n ++ [.append ⟨1⟩ (stampAt n) []] := by
      rw [filling, filling, StampTable.stampsBefore_succ, List.map_append, List.append_assoc]
      rfl
    rw [hfilling, run_append]
    exact (ih (Nat.lt_of_succ_lt hn)).append hn

/-- The next stamp comes in with a version of the second component. -/
def nextVersion (n : Nat) : Operation :=
  .append ⟨2⟩ (stampAt n) []

theorem Filled.perform_next (hs : s.Filled n) (hn : n + 1 < 2 ^ 63) :
    (nextVersion n).perform s =
      (.ok (.version ⟨⟨2⟩, 0⟩), s.withCommitted ⟨2⟩ { nid := ⟨2⟩, shape := .concept }
        { stamp := stampAt n, seq := seqOfPlace n, payload := .bare }
        (ofStamps (stampsBefore (n + 1)))) :=
  perform_append hs.second (payloadFor_concept rfl s) (StampTable.isUncommitted_stampAt hn) rfl
    (hs.intern hn)

theorem Filled.stamps_next (hs : s.Filled n) (hn : n + 1 < 2 ^ 63) :
    ((nextVersion n).after s).stamps = ofStamps (stampsBefore (n + 1)) := by
  rw [Operation.after, hs.perform_next hn]
  rfl

theorem Filled.committedOf_next (hs : s.Filled n) (hn : n + 1 < 2 ^ 63) :
    ((nextVersion n).after s).committedOf ⟨2⟩ =
      [{ stamp := stampAt n, seq := seqOfPlace n, payload := .bare }] := by
  rw [Operation.after, hs.perform_next hn]
  simp [committedOf, withCommitted]

/-- The number of the next version stands for its stamp just as long as the words suffice. -/
theorem Filled.resolves_next_iff (hs : s.Filled n) (hc : s.Contents True) (hn : n + 1 < 2 ^ 63) :
    ((nextVersion n).after s).Resolves ↔ n + 1 < UInt32.size := by
  constructor
  · intro hresolves
    refine (StampTable.stamp_stampAt_iff (Nat.lt_of_succ_lt hn)).1 ?_
    rw [← hs.stamps_next hn]
    refine hresolves ⟨2⟩ ⟨stampAt n, seqOfPlace n, .bare⟩ ?_
    rw [hs.committedOf_next hn]
    exact List.mem_singleton_self _
  · intro hsize
    refine (hc.after fun _ hreset => ?_).resolves ?_
    · cases hreset
    · rwa [hs.stamps_next hn, StampTable.size_stampsBefore]

/-- Nothing is done past the store. -/
theorem contents_filling (n : Nat) : (empty.run (filling n)).Contents True := by
  refine contents_run fun op hop hreset => ?_
  rw [filling] at hop
  simp [hreset] at hop

/-- So many versions, and then one with another stamp on the second component. -/
def spending (n : Nat) : List Operation :=
  filling n ++ [nextVersion n]

theorem run_spending (n : Nat) : empty.run (spending n) =
    (nextVersion n).after (empty.run (filling n)) :=
  run_append ..

/-- After so many versions with different stamps, the numbers of all versions stand for their
    stamps just as long as the words suffice. -/
theorem next_version_resolves_iff (hn : n + 1 < 2 ^ 63) :
    (empty.run (spending n)).Resolves ↔ n + 1 < UInt32.size := by
  rw [run_spending]
  exact (filled_run (Nat.lt_of_succ_lt hn)).resolves_next_iff (contents_filling n) hn

/-- The version that uses up the words has the number zero, which stands for no stamp. -/
theorem exists_version_without_stamp (hn : n + 1 = UInt32.size) :
    (∀ op ∈ spending n, op ≠ .toStamps .reset) ∧ ∃ h v,
      (empty.run (spending n)).history ⟨2⟩ = .ok h ∧ h.committed = [v] ∧ v.stamp = stampAt n ∧
      (empty.run (spending n)).stamps.stamp v.seq = .error (.unknownStampSeq ⟨0⟩) := by
  have hfits : n + 1 < 2 ^ 63 := by
    rw [hn]
    decide
  have hzero : seqOfPlace n = ⟨0⟩ := by
    rw [seqOfPlace, hn]
    rfl
  refine ⟨fun op hop hreset => ?_, ?_⟩
  · simp [spending, filling, nextVersion, hreset] at hop
  · rw [run_spending, Operation.after, (filled_run (Nat.lt_of_succ_lt hfits)).perform_next hfits]
    refine ⟨_, ⟨stampAt n, seqOfPlace n, .bare⟩,
      history_eq_ok_iff.2 (Table.get?_insert_self ..), rfl, rfl, ?_⟩
    rw [hzero]
    rfl

/-- Of as many versions with different stamps as there are words, the last one has a number that
    does not stand for its stamp. -/
theorem version_without_stamp :
    (∀ op ∈ spending (UInt32.size - 1), op ≠ .toStamps .reset) ∧ ∃ h v,
      (empty.run (spending (UInt32.size - 1))).history ⟨2⟩ = .ok h ∧ h.committed = [v] ∧
      v.stamp = stampAt (UInt32.size - 1) ∧
      (empty.run (spending (UInt32.size - 1))).stamps.stamp v.seq =
        .error (.unknownStampSeq ⟨0⟩) :=
  exists_version_without_stamp (by decide)

/-- Neither component has more versions than there are words, and none has fields. -/
theorem Filled.versions_next (hs : s.Filled n) (hn : n < UInt32.size) {k : Nid} {h : History}
    (hh : ((nextVersion n).after s).history k = .ok h) :
    h.committed.length < UInt32.size ∧ ∀ v ∈ h.committed, v.payload = .bare := by
  have hfits : n + 1 < 2 ^ 63 := Nat.lt_of_le_of_lt hn (by decide)
  rw [Operation.after, hs.perform_next hfits, history_eq_ok_iff] at hh
  by_cases hsecond : k = ⟨2⟩
  · subst hsecond
    obtain rfl := Option.some.inj ((Table.get?_insert_self ..).symm.trans hh)
    exact ⟨(by decide : 1 < UInt32.size), fun v hv => by rw [List.mem_singleton.1 hv]⟩
  · have hold : s.histories.get? k = some h :=
      (Table.get?_insert_of_ne _ _ (Ne.symm hsecond)).symm.trans hh
    by_cases hfirst : k = ⟨1⟩
    · subst hfirst
      obtain ⟨g, hget, hseries⟩ := hs.first
      obtain rfl : g = h := Option.some.inj (hget.symm.trans hold)
      exact ⟨hseries.length ▸ hn, hseries.bare⟩
    · rw [hs.others k hfirst hsecond] at hold
      cases hold

/-- The records of both components can be written and read. -/
theorem Filled.countsFit_next (hs : s.Filled n) (hn : n < UInt32.size) :
    ((nextVersion n).after s).CountsFit := by
  have hfits : n + 1 < 2 ^ 63 := Nat.lt_of_le_of_lt hn (by decide)
  have hidentities : ((nextVersion n).after s).identities = (empty.run (filling 0)).identities := by
    rw [Operation.after, hs.perform_next hfits]
    exact hs.identities
  have huuids : ∀ e ∈ (empty.run (filling 0)).identities.uuids.entries,
      e.2.length < UInt16.size := by decide
  refine ⟨fun _ hu => ?_, fun hschema => ?_, fun hh => (hs.versions_next hn hh).1,
    fun hh hv => ?_⟩
  · rw [hidentities] at hu
    exact huuids _ (Table.mem_entries_of_get? (Identities.uuidsOf_eq_ok_iff.1 hu))
  · rw [Operation.after, hs.perform_next hfits, schema_eq_ok_iff] at hschema
    simp [withCommitted, hs.schemas, empty] at hschema
  · rw [(hs.versions_next hn hh).2 _ hv]
    decide

/-- Nothing is done but with the store itself. -/
theorem regularlyReachable_spending (n : Nat) : (empty.run (spending n)).RegularlyReachable := by
  refine regularlyReachable_run fun op hop s => ?_
  simp only [spending, filling, nextVersion, List.mem_append, List.mem_cons, List.mem_map,
    List.not_mem_nil, or_false] at hop
  rcases hop with ((rfl | rfl) | ⟨stamp, -, rfl⟩) | rfl <;> exact trivial

/-- Such a store can be carried over just as long as the words suffice. -/
theorem importStamps_spending_iff (hn : n < UInt32.size) :
    ((importStamps (empty.run (spending n)).exportStamps).perform empty).1 = .ok () ↔
      n + 1 < UInt32.size := by
  have hfits : n + 1 < 2 ^ 63 := Nat.lt_of_le_of_lt hn (by decide)
  have hs := filled_run (Nat.lt_of_succ_lt hfits)
  rw [importStamps_exportStamps_iff (regularlyReachable_spending n).sound, run_spending,
    hs.stamps_next hfits, StampTable.size_stampsBefore]

/-- A concept is made, and then the identities alone are reset. -/
def forgetting : List Operation :=
  [.create [.uniform 1] .concept, .toIdentities .reset]

theorem countsFit_forgetting : (empty.run forgetting).CountsFit := by
  have hversions : ∀ e ∈ (empty.run forgetting).histories.entries, e.2.committed = [] := by decide
  refine ⟨fun _ hu => ?_, fun hschema => ?_, fun hg => ?_, fun hg hv => ?_⟩
  · cases hu
  · cases hschema
  · rw [hversions _ (Table.mem_entries_of_get? (history_eq_ok_iff.1 hg))]
    decide
  · rw [hversions _ (Table.mem_entries_of_get? (history_eq_ok_iff.1 hg))] at hv
    cases hv

theorem exists_refused_stamps (hn : n + 1 = UInt32.size) :
    (empty.run (spending n)).RegularlyReachable ∧ (empty.run (spending n)).CountsFit ∧
      ∃ e, ((importStamps (empty.run (spending n)).exportStamps).perform empty).1 = .error e := by
  have hlt : n < UInt32.size := Nat.lt_of_succ_le (Nat.le_of_eq hn)
  have hfits : n + 1 < 2 ^ 63 := Nat.lt_of_le_of_lt hlt (by decide)
  refine ⟨regularlyReachable_spending n, ?_, ?_⟩
  · rw [run_spending]
    exact (filled_run (Nat.lt_of_succ_lt hfits)).countsFit_next hlt
  · cases hi : ((importStamps (empty.run (spending n)).exportStamps).perform empty).1 with
    | error e => exact ⟨e, rfl⟩
    | ok u => exact absurd ((importStamps_spending_iff hlt).1 hi) (by simp [hn])

/-- A component whose identifiers are forgotten cannot be exported, and more stamps than can be
    counted cannot be imported. -/
theorem transfer_is_refused :
    ((empty.run forgetting).Reachable ∧ (empty.run forgetting).Transferable ∧
      (empty.run forgetting).components = [⟨1⟩] ∧
      (empty.run forgetting).exportHistory ⟨1⟩ = .error (.unknownIdentifier ⟨1⟩)) ∧
    (empty.run (spending (UInt32.size - 1))).RegularlyReachable ∧
    (empty.run (spending (UInt32.size - 1))).CountsFit ∧
    ∃ e, ((importStamps (empty.run (spending (UInt32.size - 1))).exportStamps).perform empty).1 =
      .error e :=
  ⟨⟨⟨forgetting, rfl⟩, ⟨countsFit_forgetting, by decide⟩, by decide, by cbv⟩,
    exists_refused_stamps (by decide)⟩

/-- A draft comes in on the first component. -/
def draftAside : Operation :=
  .append ⟨1⟩ (foundingStamp .uncommitted) []

/-- It leaves the versions and the stamps as they are. -/
theorem Filled.draft (hs : s.Filled n) : (draftAside.after s).Filled n := by
  obtain ⟨h, hget, hh⟩ := hs.first
  have hperform : draftAside.perform s = _ :=
    perform_append_draft hget (payloadFor_concept hh.shape s) rfl
  rw [Operation.after, hperform]
  refine ⟨hs.stamps, hs.identities, hs.schemas, ⟨_, Table.get?_insert_self .., hh.shape, hh.length,
    hh.bare, hh.last⟩, ?_, fun k hfirst hsecond => ?_⟩
  · exact (Table.get?_insert_of_ne _ _ (by decide)).trans hs.second
  · exact (Table.get?_insert_of_ne _ _ (Ne.symm hfirst)).trans (hs.others k hfirst hsecond)

/-- The draft does not keep the version from using up the words. -/
theorem not_resolves_draft_next (hn : n + 1 = UInt32.size) :
    (empty.run (filling n)).Resolves ∧ ¬((empty.run (filling n)).run
      [draftAside, nextVersion n]).Resolves := by
  have hfits : n + 1 < 2 ^ 63 := by
    rw [hn]
    decide
  have hs := filled_run (Nat.lt_of_succ_lt hfits)
  constructor
  · refine (contents_filling n).resolves ?_
    rw [hs.stamps, StampTable.size_stampsBefore]
    exact Nat.lt_of_succ_le (Nat.le_of_eq hn)
  · have hcontents : (draftAside.after (empty.run (filling n))).Contents True :=
      (contents_filling n).after fun _ hreset => by cases hreset
    rw [run_cons, run_cons, run_nil, hs.draft.resolves_next_iff hcontents hfits, hn]
    exact Nat.lt_irrefl _

/-- The number of a version does not stand for its stamp after an interleaving of operations on
    different components, although all numbers did before. -/
theorem interleaved_version_without_stamp :
    (empty.run (filling (UInt32.size - 1))).Reachable ∧
      (empty.run (filling (UInt32.size - 1))).Resolves ∧
      (nextVersion (UInt32.size - 1)).target? = some ⟨2⟩ ∧ draftAside.target? = some ⟨1⟩ ∧
      Interleaves [nextVersion (UInt32.size - 1)] [draftAside]
        [draftAside, nextVersion (UInt32.size - 1)] ∧
      ¬((empty.run (filling (UInt32.size - 1))).run
        [draftAside, nextVersion (UInt32.size - 1)]).Resolves := by
  obtain ⟨hbefore, hafter⟩ := not_resolves_draft_next (n := UInt32.size - 1) (by decide)
  exact ⟨⟨filling _, rfl⟩, hbefore, rfl, rfl, .right (.left .nil), hafter⟩

/-! ## Slots -/

/-- A draft of an active version. -/
def activeDraft : Draft where
  stamp := foundingStamp .uncommitted
  payload := .bare

/-- A concept, and so many drafts of it. -/
def crowding (n : Nat) : List Operation :=
  .create [.uniform 1] .concept :: List.replicate n draftAside

/-- The history of the concept then. -/
def crowded (n : Nat) : History where
  nid := ⟨1⟩
  shape := .concept
  slots := List.replicate n (.pending activeDraft)

theorem crowded_succ (n : Nat) : crowded (n + 1) =
    { crowded n with slots := (crowded n).slots ++ [.pending activeDraft] } := by
  rw [crowded, List.replicate_succ']
  rfl

theorem crowded_run (n : Nat) : (empty.run (crowding n)).histories.get? ⟨1⟩ = some (crowded n) := by
  induction n with
  | zero => rfl
  | succ n ih =>
    have hcrowding : crowding (n + 1) = crowding n ++ [draftAside] := by
      rw [crowding, List.replicate_succ']
      rfl
    have hperform : draftAside.perform (empty.run (crowding n)) = _ :=
      perform_append_draft ih (payloadFor_concept rfl _) rfl
    rw [hcrowding, run_append, run_cons, run_nil, Operation.after, hperform, get?_withDraft,
      crowded_succ]
    rfl

/-- The slot that the next handle leads to was taken long ago, once the words are used up. -/
theorem getElem?_crowded {later : List Slot} (hn : UInt32.size ≤ n) :
    ((crowded n).slots ++ later)[(crowded n).nextSlot.toNat]? = some (.pending activeDraft) := by
  have hslot : (crowded n).nextSlot.toNat = n % UInt32.size := by
    rw [History.nextSlot, crowded, List.length_replicate]
    exact UInt32.toNat_ofNat'
  have hlt : n % UInt32.size < n := Nat.lt_of_lt_of_le (Nat.mod_lt _ (by decide)) hn
  rw [hslot, crowded, List.getElem?_append_left (by rwa [List.length_replicate]),
    List.getElem?_replicate, if_pos hlt]

/-- A version that is committed as it is appended stands behind the drafts. -/
theorem append_crowded {stamp : Stamp} (hc : stamp.isUncommitted = false) (n : Nat) :
    ∃ version t, (Operation.append ⟨1⟩ stamp []).perform (empty.run (crowding n)) =
        (.ok (.version ⟨⟨1⟩, (crowded n).nextSlot⟩), t) ∧ version.stamp = stamp ∧
      t.histories.get? ⟨1⟩ = some { crowded n with
        committed := [version]
        slots := (crowded n).slots ++ [.committed version.seq] } := by
  obtain ⟨seq, stamps, hi⟩ := (empty.run (crowding n)).stamps.exists_intern hc
  exact ⟨{ stamp, seq, payload := .bare }, _,
    perform_append (crowded_run n) (payloadFor_concept rfl _) hc rfl hi, rfl,
    Table.get?_insert_self ..⟩

/-- After so many drafts, the handle of a version that is committed as it is appended leads to
    its slot just as long as the words suffice. -/
theorem next_handle_leads_iff {stamp : Stamp} (hc : stamp.isUncommitted = false) (n : Nat) :
    (∃ seq, ((Operation.append ⟨1⟩ stamp []).after (empty.run (crowding n))).slot?
      ⟨⟨1⟩, (crowded n).nextSlot⟩ = some (.committed seq)) ↔ n < UInt32.size := by
  obtain ⟨version, t, hperform, -, hget⟩ := append_crowded hc n
  rw [Operation.after, hperform, slot?, hget, Option.bind_some]
  constructor
  · rintro ⟨seq, hslot⟩
    by_contra hn
    rw [getElem?_crowded (Nat.le_of_not_lt hn)] at hslot
    cases hslot
  · intro hn
    have hroom : (crowded n).slots.length < UInt32.size := by
      rwa [crowded, List.length_replicate]
    rw [History.toNat_nextSlot hroom, List.getElem?_concat_length]
    exact ⟨version.seq, rfl⟩

/-- The handle of a version that is committed as it is appended commits an old draft instead of
    being refused, once the words are used up. -/
theorem exists_commit_crowded (hn : UInt32.size ≤ n) :
    (∀ op ∈ crowding n, op ≠ .reset) ∧ ∃ t seq seq',
      (Operation.append ⟨1⟩ (foundingStamp ⟨10⟩) []).perform (empty.run (crowding n)) =
        (.ok (.version ⟨⟨1⟩, (crowded n).nextSlot⟩), t) ∧
      (t.committedOf ⟨1⟩).getLast?.map Version.seq = some seq ∧
      ((Operation.commit ⟨⟨1⟩, (crowded n).nextSlot⟩ ⟨20⟩).perform t).1 = .ok (.stamp seq') := by
  have hstamp : (foundingStamp ⟨10⟩).isUncommitted = false := rfl
  obtain ⟨version, t, hperform, hversion, hget⟩ := append_crowded hstamp n
  have horder : ∀ last, some version.stamp.time = some last → last ≤ (⟨20⟩ : Timestamp) := by
    rintro last ⟨⟩
    rw [hversion]
    decide
  have htime : (⟨20⟩ : Timestamp) ≠ .uncommitted := by decide
  have hcommits : ∃ seq',
      ((Operation.commit ⟨⟨1⟩, (crowded n).nextSlot⟩ ⟨20⟩).perform t).1 = .ok (.stamp seq') :=
    Iff.mpr (commit_of_pending hget (getElem?_crowded hn)) ⟨htime, horder⟩
  obtain ⟨seq', hcommit⟩ := hcommits
  refine ⟨fun op hop hreset => ?_, t, version.seq, seq', hperform, ?_, hcommit⟩
  · simp [crowding, hreset, draftAside] at hop
  · rw [committedOf, hget]
    rfl

theorem nextSlot_crowded (n : Nat) : (crowded n).nextSlot = UInt32.ofNat n := by
  rw [History.nextSlot, crowded, List.length_replicate]

/-- After as many drafts as there are words, the handle of a version that was committed as it was
    appended commits the first draft. -/
theorem settled_handle_commits :
    (∀ op ∈ crowding UInt32.size, op ≠ .reset) ∧ ∃ t seq seq',
      (Operation.append ⟨1⟩ (foundingStamp ⟨10⟩) []).perform
        (empty.run (crowding UInt32.size)) = (.ok (.version ⟨⟨1⟩, 0⟩), t) ∧
      (t.committedOf ⟨1⟩).getLast?.map Version.seq = some seq ∧
      ((Operation.commit ⟨⟨1⟩, 0⟩ ⟨20⟩).perform t).1 = .ok (.stamp seq') := by
  have hzero : (crowded UInt32.size).nextSlot = 0 := nextSlot_crowded UInt32.size
  rw [← hzero]
  exact exists_commit_crowded (Nat.le_refl _)

/-- The stamp of an inactive version. -/
def retiringStamp (time : Timestamp) : Stamp :=
  { foundingStamp time with status := .inactive }

/-- A commit adds the version that its draft was of. -/
theorem Committed.stamps_committedOf {t : Store} {handle : Handle} {time : Timestamp}
    {seq : StampSeq} {h : History} {draft : Draft} (hc : s.Committed handle time (.ok seq) t)
    (hget : s.histories.get? handle.nid = some h)
    (hslot : h.slots[handle.slot.toNat]? = some (.pending draft)) :
    (t.committedOf handle.nid).map Version.stamp =
      h.committed.map Version.stamp ++ [draft.stamp.withTime time] := by
  rcases hc with _ | @⟨h', draft', -, -, -, hget', hslot', -, -⟩
  obtain rfl : h' = h := Option.some.inj (hget'.symm.trans hget)
  obtain rfl : draft' = draft := Slot.pending.inj (Option.some.inj (hslot'.symm.trans hslot))
  simp [committedOf]

/-- A commit of the draft that is appended behind so many others commits one of these, while
    a direct append at the same time commits what was meant. -/
theorem exists_commit_other (hn : UInt32.size ≤ n) : ∃ t u v seq,
    (Operation.append ⟨1⟩ (retiringStamp .uncommitted) []).perform (empty.run (crowding n)) =
      (.ok (.version ⟨⟨1⟩, (crowded n).nextSlot⟩), t) ∧
    (Operation.append ⟨1⟩ ((retiringStamp .uncommitted).withTime ⟨10⟩) []).perform
      (empty.run (crowding n)) = (.ok (.version ⟨⟨1⟩, (crowded n).nextSlot⟩), u) ∧
    (Operation.commit ⟨⟨1⟩, (crowded n).nextSlot⟩ ⟨10⟩).perform t = (.ok (.stamp seq), v) ∧
    (u.committedOf ⟨1⟩).map Version.stamp = [retiringStamp ⟨10⟩] ∧
    (v.committedOf ⟨1⟩).map Version.stamp = [foundingStamp ⟨10⟩] := by
  have hdraft : (Operation.append ⟨1⟩ (retiringStamp .uncommitted) []).perform
      (empty.run (crowding n)) = _ :=
    perform_append_draft (crowded_run n) (payloadFor_concept rfl _) rfl
  have hc : (retiringStamp ⟨10⟩).isUncommitted = false := rfl
  obtain ⟨version, u, hdirect, hstamp, hget⟩ := append_crowded hc n
  have htime : (⟨10⟩ : Timestamp) ≠ .uncommitted := by decide
  have hcommits : ∃ seq, ((Operation.commit ⟨⟨1⟩, (crowded n).nextSlot⟩ ⟨10⟩).perform
      ((empty.run (crowding n)).withDraft ⟨1⟩ (crowded n)
        { stamp := retiringStamp .uncommitted, payload := .bare })).1 = .ok (.stamp seq) :=
    Iff.mpr (commit_of_pending (get?_withDraft ..) (getElem?_crowded hn))
      ⟨htime, fun last hl => by cases hl⟩
  obtain ⟨seq, hcommit⟩ := hcommits
  refine ⟨_, u, _, seq, hdraft, hdirect, Prod.ext hcommit rfl, ?_, ?_⟩
  · rw [committedOf, hget]
    exact congrArg ([·]) hstamp
  · exact (Operation.committed_of_answer hcommit).stamps_committedOf (get?_withDraft ..)
      (getElem?_crowded hn)

/-- After as many drafts as there are words, the draft that is appended next has the handle of the
    first one, and its commit is one of the first. -/
theorem commit_of_first_draft : ∃ t u v seq,
    (Operation.append ⟨1⟩ (retiringStamp .uncommitted) []).perform
      (empty.run (crowding UInt32.size)) = (.ok (.version ⟨⟨1⟩, 0⟩), t) ∧
    (Operation.append ⟨1⟩ ((retiringStamp .uncommitted).withTime ⟨10⟩) []).perform
      (empty.run (crowding UInt32.size)) = (.ok (.version ⟨⟨1⟩, 0⟩), u) ∧
    (Operation.commit ⟨⟨1⟩, 0⟩ ⟨10⟩).perform t = (.ok (.stamp seq), v) ∧
    (u.committedOf ⟨1⟩).map Version.stamp = [retiringStamp ⟨10⟩] ∧
    (v.committedOf ⟨1⟩).map Version.stamp = [foundingStamp ⟨10⟩] := by
  have hzero : (crowded UInt32.size).nextSlot = 0 := nextSlot_crowded UInt32.size
  rw [← hzero]
  exact exists_commit_other (Nat.le_refl _)

end Bitemporal.Store
