import Bitemporal.Proofs.Store.Contents
import Bitemporal.Proofs.Store.Indexing
import Bitemporal.Proofs.Store.Renaming
import Mathlib

/-!
# Operations on different components commute

Two lists of operations on versions, each addressed to a component of its own, can be run in
turns in many ways (`Interleaves`). All components share the interned stamps and the indices,
but each operation is local (`Store.run_eq_runOn`): what it does is told by the history of its
component and the number of one stamp. So all ways lead to the same, up to the numbers of the
stamps that come in (`Store.interleavings_agree`).

What corresponds to a number is found by the stamp that it stands for, which requires that
the same stamps come in. They do, as each of them is carried by a version
(`Store.carries_run`), and the versions are the same if their numbers are left out of account
(`Store.stamps_subset_of_run`). The indices need no argument of their own: what they answer
is read off the histories (`Store.under_eq_of_rename`).
-/

namespace Bitemporal

variable {α : Type}

/-- A list is made of two others, each of which keeps its order. -/
inductive Interleaves : List α → List α → List α → Prop
  | nil : Interleaves [] [] []
  | left {a : α} {as bs cs : List α} : Interleaves as bs cs → Interleaves (a :: as) bs (a :: cs)
  | right {b : α} {as bs cs : List α} : Interleaves as bs cs → Interleaves as (b :: bs) (b :: cs)

namespace Interleaves

variable {as bs cs : List α}

theorem mem_iff (h : Interleaves as bs cs) (x : α) : x ∈ cs ↔ x ∈ as ∨ x ∈ bs := by
  induction h with
  | nil => simp
  | left _ ih => rw [List.mem_cons, List.mem_cons, ih, or_assoc]
  | right _ ih => rw [List.mem_cons, List.mem_cons, ih, or_left_comm]

theorem filter (h : Interleaves as bs cs) (p : α → Bool) :
    Interleaves (as.filter p) (bs.filter p) (cs.filter p) := by
  induction h with
  | nil => exact .nil
  | @left a as bs cs _ ih =>
    rw [List.filter_cons, List.filter_cons]
    split
    · exact ih.left
    · exact ih
  | @right b as bs cs _ ih =>
    rw [List.filter_cons, List.filter_cons]
    split
    · exact ih.right
    · exact ih

theorem eq_left (h : Interleaves as [] cs) : cs = as := by
  induction as generalizing cs with
  | nil =>
    cases h
    rfl
  | cons a as ih =>
    cases h with
    | left h => rw [ih h]

theorem eq_right (h : Interleaves [] bs cs) : cs = bs := by
  induction bs generalizing cs with
  | nil =>
    cases h
    rfl
  | cons b bs ih =>
    cases h with
    | right h => rw [ih h]

end Interleaves

/-! ## Numbers that stay -/

namespace History

variable {f : StampSeq → StampSeq} {h : History}

theorem rename_eq_self (hversions : ∀ version ∈ h.committed, f version.seq = version.seq)
    (hslots : ∀ seq, .committed seq ∈ h.slots → f seq = seq) : h.rename f = h := by
  have hcommitted : h.committed.map (Version.rename f) = h.committed := by
    refine (List.map_congr_left fun version hv => ?_).trans (List.map_id _)
    rw [Version.rename, hversions version hv]
    rfl
  have hkept : h.slots.map (Slot.rename f) = h.slots := by
    refine (List.map_congr_left fun slot hslot => ?_).trans (List.map_id _)
    cases slot with
    | pending draft => rfl
    | committed seq =>
      rw [Slot.rename, hslots seq hslot]
      rfl
  rw [rename, hcommitted, hkept]

/-- What a component is filed under has to do with no number of a stamp. -/
theorem filedUnder_rename {heading : Index.Heading} :
    (h.rename f).FiledUnder heading ↔ h.FiledUnder heading := by
  simp only [FiledUnder, rename, List.mem_map, exists_exists_and_eq_and]
  rfl

end History

namespace Store

variable {s t : Store} {n : Nid} {ops ops' : List Operation}

/-- A store that has no history of a component says so without a number. -/
theorem renamed_history (f : StampSeq → StampSeq) (s : Store) (n : Nid) :
    renamed f (History.rename f) (s.history n) = (s.history n).map (History.rename f) := by
  rw [history]
  cases s.histories.get? n <;> rfl

/-- If the numbers of interned stamps stay, so do all numbers in a history that is marked. -/
theorem history_rename_eq_self {f : StampSeq → StampSeq} (hs : s.Contents True)
    (hsize : s.stamps.size < UInt32.size)
    (hf : ∀ seq stamp, s.stamps.stamp seq = .ok stamp → f seq = seq) (n : Nid) :
    renamed f (History.rename f) (s.history n) = s.history n := by
  rw [renamed_history]
  cases hh : s.history n with
  | error e => rfl
  | ok h =>
    have hget := history_eq_ok hh
    have hversions : ∀ version ∈ h.committed, f version.seq = version.seq := fun version hv =>
      hf _ _ ((hs.marks trivial hget version hv).stamp_eq hsize)
    refine congrArg Except.ok (History.rename_eq_self hversions fun seq hslot => ?_)
    -- the numbers in slots are those of versions
    have hseq : seq ∈ h.slots.filterMap Slot.seq? := List.mem_filterMap.2 ⟨_, hslot, rfl⟩
    obtain ⟨version, hv, rfl⟩ := List.mem_map.1 ((hs.wellKept hget).numbers.mem_iff.1 hseq)
    exact hversions version hv

/-! ## Runs of operations on versions -/

/-- Two stores differ in the numbers of stamps only. -/
structure SameButNumbers (ρ : Equiv.Perm StampSeq) (s t : Store) : Prop where
  tables : s.SameTables t
  size : t.stamps.size = s.stamps.size
  /-- Histories have the same commits, slots and drafts. -/
  history : ∀ n, t.history n = (s.history n).map (History.rename ρ)
  /-- The indices answer the same. -/
  under : ∀ heading, t.index.under heading = s.index.under heading
  /-- Corresponding numbers stand for the same stamp, -/
  stamp : ∀ seq, t.stamps.stamp (ρ seq) = s.stamps.stamp seq
  /-- and are looked up under the same stamp. -/
  seq? : ∀ stamp, t.stamps.seq? stamp = (s.stamps.seq? stamp).map ρ

/-- What a run leaves of a component, but for the numbers, is told by the operations on it. -/
theorem renamed_history_run (hops : OnVersions ops) (s : Store) (f : StampSeq → StampSeq)
    (n : Nid) :
    renamed f (History.rename f) ((s.run ops).history n) =
      s.runOn (f ∘ (s.run ops).stamps.number) (renamed f (History.rename f) (s.history n))
        (addressedTo n ops) := by
  obtain ⟨-, hhistory⟩ := run_eq_runOn hops rfl (s.run ops).stamps.numbers_number n
  rw [hhistory, runOn_rename]

/-- Histories that are the same but for the numbers have versions of the same stamps. -/
theorem map_stamp_committedOf {f : StampSeq → StampSeq}
    (hsame : renamed f (History.rename f) (s.history n) =
      renamed f (History.rename f) (t.history n)) :
    (s.committedOf n).map Version.stamp = (t.committedOf n).map Version.stamp := by
  rw [history, history] at hsame
  rw [committedOf, committedOf]
  cases hs : s.histories.get? n with
  | none =>
    cases ht : t.histories.get? n with
    | none => rfl
    | some h =>
      rw [hs, ht] at hsame
      cases hsame
  | some h =>
    rw [hs] at hsame
    cases ht : t.histories.get? n with
    | none =>
      rw [ht] at hsame
      cases hsame
    | some h' =>
      rw [ht] at hsame
      have hstamps := congrArg (fun h => h.committed.map Version.stamp) (Except.ok.inj hsame)
      simp only [History.rename, List.map_map] at hstamps
      exact hstamps

/-- The stamps that come in with a run come in with each run of the same operations on the
    same components, whatever their numbers are. -/
theorem stamps_subset_of_run (hs' : (s.run ops').Contents True) (hops : OnVersions ops)
    (hops' : OnVersions ops') (hsame : ∀ n, addressedTo n ops = addressedTo n ops') :
    (s.run ops).stamps.stamps ⊆ (s.run ops').stamps.stamps := by
  intro stamp hstamp
  obtain hold | ⟨n, h, hget, version, hv, rfl⟩ := carries_run hops s stamp hstamp
  · exact (internsTo_run hops' s).growsTo.stamps.subset hold
  · -- the histories are the same if all numbers are made one
    have hforget := renamed_history_run hops s (fun _ => default) n
    rw [hsame] at hforget
    have hstamps := map_stamp_committedOf
      (hforget.trans (renamed_history_run hops' s (fun _ => default) n).symm)
    have hmem : version.stamp ∈ ((s.run ops').committedOf n).map Version.stamp :=
      hstamps ▸ List.mem_map_of_mem (mem_committedOf_iff.2 ⟨h, hget, hv⟩)
    obtain ⟨version', hv', heq⟩ := List.mem_map.1 hmem
    obtain ⟨h', hget', hv'⟩ := mem_committedOf_iff.1 hv'
    obtain ⟨place, hp, -⟩ := hs'.marks trivial hget' version' hv'
    rw [← heq]
    exact List.mem_of_getElem? hp

theorem contents_run_of_target (hs : s.Contents True) (hops : OnVersions ops) :
    (s.run ops).Contents True := by
  refine run_induction hs fun op hop t ht => ht.after fun _ => ?_
  rintro rfl
  obtain ⟨m, htarget⟩ := hops _ hop
  cases htarget

/-- Indices answer the same of histories that are the same but for the numbers. -/
theorem under_eq_of_rename {f : StampSeq → StampSeq} (hs : s.Indexed) (ht : t.Indexed)
    (hhistory : ∀ n, t.history n = (s.history n).map (History.rename f))
    (heading : Index.Heading) : t.index.under heading = s.index.under heading := by
  refine NidSet.ext_iff_mem.2 fun n => ?_
  rw [hs.mem_under, ht.mem_under, hhistory]
  cases s.history n with
  | error e => simp [Except.map]
  | ok h => simp [Except.map, History.filedUnder_rename]

/-- Runs of operations on versions agree if they hold the same operations on each component, in
    the same order. -/
theorem runs_agree (hreach : s.Reachable) (hs : s.Contents True) (hops : OnVersions ops)
    (hops' : OnVersions ops') (hsame : ∀ n, addressedTo n ops' = addressedTo n ops)
    (hsize : (s.run ops).stamps.size < UInt32.size) :
    ∃ ρ : Equiv.Perm StampSeq,
      (∀ seq stamp, s.stamps.stamp seq = .ok stamp → ρ seq = seq) ∧
      (∀ n, repliesTo n s ops' = (repliesTo n s ops).map (renamed ρ (Reply.rename ρ))) ∧
      (s.run ops).SameButNumbers ρ (s.run ops') := by
  have hsubset := stamps_subset_of_run (contents_run_of_target hs hops') hops hops' fun n =>
    (hsame n).symm
  have hsubset' := stamps_subset_of_run (contents_run_of_target hs hops) hops' hops hsame
  have hinterned : StampTable.SameInterned s.stamps (s.run ops).stamps (s.run ops').stamps :=
    ⟨hs.coherent, internsTo_run hops s, internsTo_run hops' s,
      fun _ => ⟨@hsubset _, @hsubset' _⟩, hsize⟩
  have hstays (seq : StampSeq) (stamp : Stamp) (hstamp : s.stamps.stamp seq = .ok stamp) :
      hinterned.correspondence seq = seq := hinterned.correspondence_of_stamp hstamp
  have hnumber : (s.run ops').stamps.number =
      hinterned.correspondence ∘ (s.run ops).stamps.number := hinterned.number_eq
  have hfound (n : Nid) := history_rename_eq_self hs
    (Nat.lt_of_le_of_lt (internsTo_run hops s).growsTo.size_le hsize) hstays n
  have hhistory (n : Nid) : (s.run ops').history n =
      ((s.run ops).history n).map (History.rename hinterned.correspondence) := by
    obtain ⟨-, hrun⟩ := run_eq_runOn (s := s) hops' rfl (s.run ops').stamps.numbers_number n
    rw [← renamed_history, renamed_history_run hops, hfound, ← hnumber, ← hsame, hrun]
  refine ⟨hinterned.correspondence, hstays, fun n => ?_, ?_⟩
  · obtain ⟨hreplies, -⟩ := run_eq_runOn (s := s) hops rfl (s.run ops).stamps.numbers_number n
    obtain ⟨hreplies', -⟩ := run_eq_runOn (s := s) hops' rfl (s.run ops').stamps.numbers_number n
    rw [hreplies, hreplies', hsame, ← answersOn_rename, hnumber, hfound]
  · exact
      { tables := (sameTables_run hops s).symm.trans (sameTables_run hops' s)
        size := hinterned.size_eq.symm
        history := hhistory
        under := under_eq_of_rename (indexed_of_reachable (hreach.run ops))
          (indexed_of_reachable (hreach.run ops')) hhistory
        stamp := hinterned.stamp_correspondence
        seq? := hinterned.seq?_correspondence }

/-- The numbers of all versions stand for their stamps. -/
def Resolves (s : Store) : Prop :=
  ∀ n, ∀ version ∈ s.committedOf n, s.stamps.stamp version.seq = .ok version.stamp

theorem Contents.resolves (hs : s.Contents True) (hsize : s.stamps.size < UInt32.size) :
    s.Resolves := by
  intro n version hv
  obtain ⟨h, hget, hv⟩ := mem_committedOf_iff.1 hv
  exact (hs.marks trivial hget version hv).stamp_eq hsize

theorem Resolves.contents (hr : s.Resolves) (hs : s.Reachable) : s.Contents True where
  stamps := (contents_of_reachable hs).stamps
  coherent := (contents_of_reachable hs).coherent
  wellKept := (contents_of_reachable hs).wellKept
  marks _ n _ hget version hv :=
    StampTable.places_of_stamp (hr n version (mem_committedOf_iff.2 ⟨_, hget, hv⟩))

/-- Operations on the versions of different components commute. Whichever way two lists of them
    are interleaved that are addressed to one component each, each operation is answered the same,
    and histories, drafts and answers of the indices are the same afterwards, but for a permutation
    of the numbers of stamps that leaves those from before alone; and in both ways the numbers of
    all versions still stand for their stamps. -/
theorem interleavings_agree {as bs ops ops' : List Operation} {a b : Nid} (hs : s.Reachable)
    (hresolves : s.Resolves) (hne : a ≠ b) (has : ∀ op ∈ as, op.target? = some a)
    (hbs : ∀ op ∈ bs, op.target? = some b) (hops : Interleaves as bs ops)
    (hops' : Interleaves as bs ops') (hsize : (s.run ops).stamps.size < UInt32.size) :
    ∃ ρ : Equiv.Perm StampSeq,
      (∀ seq stamp, s.stamps.stamp seq = .ok stamp → ρ seq = seq) ∧
      (∀ n, repliesTo n s ops' = (repliesTo n s ops).map (renamed ρ (Reply.rename ρ))) ∧
      (s.run ops).SameButNumbers ρ (s.run ops') ∧
      (s.run ops).Resolves ∧ (s.run ops').Resolves := by
  have hcontents : s.Contents True := hresolves.contents hs
  have htargets {ops : List Operation} (hops : Interleaves as bs ops) : OnVersions ops := by
    intro op hop
    rcases (hops.mem_iff op).1 hop with hop | hop
    · exact ⟨a, has op hop⟩
    · exact ⟨b, hbs op hop⟩
  have hsame (n : Nid) : addressedTo n ops' = addressedTo n ops := by
    have hleft := hops.filter fun op => op.target? = some n
    have hright := hops'.filter fun op => op.target? = some n
    by_cases hn : n = a
    · -- nothing is addressed to the component on the one side
      have hnone : bs.filter (fun op => op.target? = some n) = [] := by
        refine List.filter_eq_nil_iff.2 fun op hop => ?_
        simp [hbs op hop, hn, hne.symm]
      rw [hnone] at hleft hright
      exact hright.eq_left.trans hleft.eq_left.symm
    · have hnone : as.filter (fun op => op.target? = some n) = [] := by
        refine List.filter_eq_nil_iff.2 fun op hop => ?_
        simp [has op hop, Ne.symm hn]
      rw [hnone] at hleft hright
      exact hright.eq_right.trans hleft.eq_right.symm
  obtain ⟨ρ, hstays, hreplies, hstores⟩ := runs_agree hs hcontents (htargets hops)
    (htargets hops') hsame hsize
  refine ⟨ρ, hstays, hreplies, hstores, ?_, ?_⟩
  · exact (contents_run_of_target hcontents (htargets hops)).resolves hsize
  · refine (contents_run_of_target hcontents (htargets hops')).resolves ?_
    rwa [hstores.size]

/-- A version of the concept 1 of the founding run. -/
def onConcept : List Operation :=
  [.append ⟨1⟩ (foundingStamp ⟨30⟩) []]

/-- The draft of the semantic 2 is committed, and then given other values in vain. -/
def onSemantic : List Operation :=
  [.commit ⟨⟨2⟩, 2⟩ ⟨40⟩, .updateDraft ⟨⟨2⟩, 2⟩ [.nid ⟨9⟩]]

/-- The numbers of two stamps depend on the order, and so does the refusal that tells one. -/
theorem interleavings_agree_of_founding :
    ∃ ρ : Equiv.Perm StampSeq, ρ ⟨1⟩ = ⟨1⟩ ∧ ρ ⟨2⟩ = ⟨2⟩ ∧ ρ ⟨4⟩ = ⟨3⟩ ∧
      repliesTo ⟨2⟩ (empty.run founding) (onConcept ++ onSemantic) =
        [.ok (.stamp ⟨4⟩), .error (.alreadyCommitted ⟨2⟩ ⟨4⟩)] ∧
      repliesTo ⟨2⟩ (empty.run founding) (onSemantic ++ onConcept) =
        [.ok (.stamp ⟨3⟩), .error (.alreadyCommitted ⟨2⟩ ⟨3⟩)] ∧
      ((empty.run founding).run (onConcept ++ onSemantic)).SameButNumbers ρ
        ((empty.run founding).run (onSemantic ++ onConcept)) := by
  have hsize : ((empty.run founding).run (onConcept ++ onSemantic)).stamps.size = 4 := by cbv
  have hleft : Interleaves onConcept onSemantic (onConcept ++ onSemantic) :=
    .left (.right (.right .nil))
  have hright : Interleaves onConcept onSemantic (onSemantic ++ onConcept) :=
    .right (.right (.left .nil))
  have hresolves : (empty.run founding).Resolves := by
    refine (contents_run (by simp [founding])).resolves ?_
    rw [show (empty.run founding).stamps.size = 2 by cbv]
    decide
  have hconcept : ∀ op ∈ onConcept, op.target? = some ⟨1⟩ := by
    simp [onConcept, Operation.target?]
  have hsemantic : ∀ op ∈ onSemantic, op.target? = some ⟨2⟩ := by
    simp [onSemantic, Operation.target?]
  obtain ⟨ρ, hstays, hreplies, hstores, -⟩ := interleavings_agree ⟨founding, rfl⟩ hresolves
    (by decide) hconcept hsemantic hleft hright (by rw [hsize]; decide)
  have hfirst : repliesTo ⟨2⟩ (empty.run founding) (onConcept ++ onSemantic) =
      [.ok (.stamp ⟨4⟩), .error (.alreadyCommitted ⟨2⟩ ⟨4⟩)] := by cbv
  have hsecond : repliesTo ⟨2⟩ (empty.run founding) (onSemantic ++ onConcept) =
      [.ok (.stamp ⟨3⟩), .error (.alreadyCommitted ⟨2⟩ ⟨3⟩)] := by cbv
  have hexchanged := hreplies ⟨2⟩
  rw [hfirst, hsecond] at hexchanged
  refine ⟨ρ, hstays _ (foundingStamp ⟨10⟩) (by cbv), hstays _ (foundingStamp ⟨20⟩) (by cbv), ?_,
    hfirst, hsecond, hstores⟩
  simpa [renamed, Reply.rename, Error.rename, eq_comm] using hexchanged

end Store

end Bitemporal
