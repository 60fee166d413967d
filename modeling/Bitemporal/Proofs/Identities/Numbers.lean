import Bitemporal.Proofs.Identities.Requests
import Bitemporal.Proofs.Store.Operation
import Mathlib.Data.List.Infix

/-!
# Numbers that are handed out

A number is handed out to a component that is new (`Identities.HandsOut`). It is meant
to be new itself, and the identifiers under a number are meant to stay.

The counter is what this rests on: as long as the largest number is free, all numbers
in use are below the counter (`Identities.Ahead`), since restoring a mapping moves the
counter past the restored number. There is nothing past the largest number, however,
and the counter stays at it if it is restored, or wraps around if it is handed out. So
a run without a reset keeps to what is meant if it hands out no number once the largest
one is taken (`Identities.run_never_reuses`). Otherwise, the largest number may be
handed out again, and its identifiers are replaced (`Identities.restored_last_is_reused`).
-/

namespace Bitemporal

namespace Nid

/-- The largest number. -/
def last : Nid := ⟨Int32.maxValue⟩

variable {a b c : Nid}

theorem lt_next (h : a ≠ last) : a < a.next := by
  have hval : a.val.toInt ≠ 2147483647 := fun e => h (ext_toInt e)
  have hle : a.val.toInt ≤ 2147483647 := a.val.toInt_le
  have hge := a.val.le_toInt
  rw [lt_iff, next, Int32.toInt_add]
  have hone : (1 : Int32).toInt = 1 := rfl
  rw [hone, Int.bmod_eq_of_le (by omega) (by omega)]
  omega

theorem lt_nextSaturating (h : a ≠ last) : a < a.nextSaturating := by
  rw [nextSaturating, if_neg fun e => h (congrArg Nid.mk e)]
  exact lt_next h

protected theorem lt_of_lt_of_le (h : a < b) (h' : b ≤ c) : a < c := by
  rw [lt_iff] at *
  rw [le_iff] at h'
  omega

protected theorem le_of_lt (h : a < b) : a ≤ b := by
  rw [lt_iff] at h
  rw [le_iff]
  omega

protected theorem le_max_left (a b : Nid) : a ≤ max a b := by
  show a ≤ if a ≤ b then b else a
  split
  · assumption
  · exact le_iff.2 (Int.le_refl _)

protected theorem le_max_right (a b : Nid) : b ≤ max a b := by
  show b ≤ if a ≤ b then b else a
  split
  · exact le_iff.2 (Int.le_refl _)
  · next h =>
    rw [le_iff] at *
    omega

end Nid

namespace Identities

variable {ids ids' : Identities} {op : Operation} {n : Nid}

theorem run_append (ids : Identities) (ops ops' : List Operation) :
    ids.run (ops ++ ops') = (ids.run ops).run ops' :=
  List.foldl_append

/-- A request is answered with a number that is handed out for it. -/
inductive HandsOut (ids : Identities) : Operation → Nid → Prop
  | nidFor {uuids : List Uuid} {nid : Nid} {ids' : Identities} :
      ids.owner? uuids = .ok none → ids.nidFor uuids = .ok (nid, ids') →
      HandsOut ids (.nidFor uuids) nid
  | allocate (fresh : Uuid) : HandsOut ids (.allocate fresh) (ids.allocate fresh).1

theorem HandsOut.eq_next (h : ids.HandsOut op n) : n = ids.next := by
  cases h with
  | nidFor ho hn =>
    rcases nidFor_eq_ok hn with ⟨ho', -⟩ | ⟨-, -, hnext, -⟩
    · rw [ho] at ho'
      cases ho'
    · exact hnext
  | allocate fresh => rfl

/-! ## One request -/

/-- What a request does to the numbers in use and to the counter. -/
inductive Renumbered (ids : Identities) (op : Operation) (ids' : Identities) : Prop
  | handedOut {uuids : List Uuid} : ids.HandsOut op ids.next →
      ids'.uuids = ids.uuids.insert ids.next uuids → ids'.next = ids.next.next →
      Renumbered ids op ids'
  | taken {nid : Nid} {uuids : List Uuid} : ids.contains nid = false →
      ids'.uuids = ids.uuids.insert nid uuids → ids'.next = max ids.next nid.nextSaturating →
      Renumbered ids op ids'
  | kept : ids'.uuids = ids.uuids → ids.next ≤ ids'.next → Renumbered ids op ids'

theorem renumbered_restore {nid : Nid} {uuids : List Uuid} {kind : Kind}
    {answer : Except Error SequenceNumber} (h : ids.Restored nid uuids kind answer ids') :
    ids.Renumbered op ids' := by
  -- the counter is moved whether identifiers are bound or not, and the kind matters to neither
  have hmoved : ∀ bound, ids.restoreUuids nid uuids = .ok bound →
      ids'.uuids = bound.uuids → ids'.next = max bound.next nid.nextSaturating →
      ids.Renumbered op ids' := by
    intro bound hb hu hn
    rcases restoreUuids_eq_ok hb with ⟨-, rfl⟩ | ⟨-, hc, rfl⟩
    · exact .kept hu (hn ▸ Nid.le_max_left _ _)
    · exact .taken hc hu hn
  cases h with
  | refused hb => exact .kept rfl (Nid.le_iff.2 (Int.le_refl _))
  | contradicted hb hk => exact hmoved _ hb rfl rfl
  | installed hb hk =>
    obtain ⟨-, hu, hn⟩ := registerKind_keeps hk
    exact hmoved _ hb hu hn

theorem renumbered_after (hop : op ≠ .reset) (ids : Identities) :
    ids.Renumbered op (ids.after op) := by
  have hrefl : ids.next ≤ ids.next := Nid.le_iff.2 (Int.le_refl _)
  cases op with
  | nidFor uuids =>
    rw [after]
    split
    · next nid ids' h =>
      rcases nidFor_eq_ok h with ⟨-, rfl⟩ | ⟨-, ho, rfl, rfl⟩
      · exact .kept rfl hrefl
      · exact .handedOut (.nidFor ho h) rfl rfl
    · exact .kept rfl hrefl
  | allocate fresh => exact .handedOut (.allocate fresh) rfl rfl
  | registerKind nid kind =>
    rw [after]
    split
    · next seq ids' h =>
      obtain ⟨-, hu, hn⟩ := registerKind_keeps h
      exact .kept hu (hn ▸ hrefl)
    · exact .kept rfl hrefl
  | restore nid uuids kind => exact renumbered_restore (restored ids nid uuids kind)
  | reset => exact absurd rfl hop

/-! ## The counter -/

/-- Unless the largest number is in use, all numbers in use are below the counter. -/
def Ahead (ids : Identities) : Prop :=
  ids.contains .last = false → ∀ n, ids.contains n = true → n < ids.next

theorem contains_insert {uuids : List Uuid} {nid : Nid}
    (h : ids'.uuids = ids.uuids.insert nid uuids) :
    ids'.contains n = true ↔ n = nid ∨ ids.contains n = true := by
  rw [contains, Table.contains, h, Table.get?_insert]
  by_cases hn : nid = n
  · simp [hn]
  · simp [hn, Ne.symm hn, contains, Table.contains]

/-- One more number is taken, and the counter is moved past it. -/
theorem Ahead.insert {uuids : List Uuid} {nid : Nid} (ha : ids.Ahead)
    (hu : ids'.uuids = ids.uuids.insert nid uuids) (hnid : nid ≠ .last → nid < ids'.next)
    (hnext : ids.contains .last = false → nid ≠ .last → ids.next ≤ ids'.next) : ids'.Ahead := by
  intro hlast m hm
  rw [Bool.eq_false_iff, Ne, contains_insert hu, not_or, Bool.not_eq_true] at hlast
  have hne : nid ≠ .last := fun e => hlast.1 e.symm
  rcases (contains_insert hu).1 hm with rfl | hm
  · exact hnid hne
  · exact Nid.lt_of_lt_of_le (ha hlast.2 m hm) (hnext hlast.2 hne)

theorem Renumbered.ahead (h : ids.Renumbered op ids') (ha : ids.Ahead) : ids'.Ahead := by
  cases h with
  | handedOut hh hu hn =>
    refine ha.insert hu (fun hne => hn ▸ Nid.lt_next hne) fun _ hne => ?_
    exact hn ▸ Nid.le_of_lt (Nid.lt_next hne)
  | taken hc hu hn =>
    refine ha.insert hu (fun hne => ?_) fun _ _ => hn ▸ Nid.le_max_left _ _
    exact hn ▸ Nid.lt_of_lt_of_le (Nid.lt_nextSaturating hne) (Nid.le_max_right _ _)
  | kept hu hn =>
    intro hlast m hm
    rw [contains, hu] at hlast hm
    exact Nid.lt_of_lt_of_le (ha hlast m hm) hn

theorem Ahead.next_free (ha : ids.Ahead) (hlast : ids.contains .last = false) :
    ids.contains ids.next = false :=
  Bool.eq_false_iff.2 fun hc => Nid.lt_irrefl _ (ha hlast _ hc)

theorem Ahead.run {ops : List Operation} (hops : .reset ∉ ops) (ha : ids.Ahead) :
    (ids.run ops).Ahead := by
  induction ops generalizing ids with
  | nil => exact ha
  | cons op ops ih =>
    rw [List.mem_cons, not_or] at hops
    exact ih hops.2 ((renumbered_after (Ne.symm hops.1) ids).ahead ha)

theorem ahead_empty : empty.Ahead :=
  fun _ n hn => absurd hn (by simp [contains, empty, Table.contains])

/-! ## Runs -/

/-- In a run, a number is handed out only while the largest one is free. -/
def WithinNumbers (ids : Identities) (ops : List Operation) : Prop :=
  ∀ before op after n, ops = before ++ op :: after → (ids.run before).HandsOut op n →
    (ids.run before).contains .last = false

theorem HandsOut.contains_eq_false (h : ids.HandsOut op n) (ha : ids.Ahead)
    (hlast : ids.contains .last = false) : ids.contains n = false := by
  rw [h.eq_next]
  exact ha.next_free hlast

/-- A request keeps the identifiers of a component, unless it hands out the number of
    the component. -/
theorem Renumbered.get? {uuids : List Uuid} (h : ids.Renumbered op ids')
    (hnew : ∀ m, ids.HandsOut op m → ids.contains m = false)
    (hget : ids.uuids.get? n = some uuids) : ids'.uuids.get? n = some uuids := by
  have hne : ∀ m, ids.contains m = false → m ≠ n := by
    rintro m hm rfl
    rw [contains_eq_false_iff, hget] at hm
    cases hm
  cases h with
  | handedOut hh hu hn => rwa [hu, Table.get?_insert_of_ne _ _ (hne _ (hnew _ hh))]
  | taken hc hu hn => rwa [hu, Table.get?_insert_of_ne _ _ (hne _ hc)]
  | kept hu hn => rwa [hu]

/-- In a run without a reset that hands out no number once the largest one is taken, a
    number that is handed out was not in use, and the identifiers under a number stay. -/
theorem run_never_reuses {ops before after : List Operation} (hreset : .reset ∉ ops)
    (hwithin : empty.WithinNumbers ops) (hops : ops = before ++ after) :
    (∀ op ∈ after.head?, ∀ n, (empty.run before).HandsOut op n →
      (empty.run before).contains n = false) ∧
    ∀ n uuids, (empty.run before).uuidsOf n = .ok uuids →
      (empty.run ops).uuidsOf n = .ok uuids := by
  have hnew : ∀ {before op after n}, ops = before ++ op :: after →
      (empty.run before).HandsOut op n → (empty.run before).contains n = false := by
    intro before op after n hops hh
    have hreset' : .reset ∉ before := fun hm => hreset (hops ▸ List.mem_append_left _ hm)
    exact hh.contains_eq_false (ahead_empty.run hreset') (hwithin _ _ _ _ hops hh)
  refine ⟨fun op hop n hh => ?_, fun n uuids hu => ?_⟩
  · obtain ⟨rest, rfl⟩ := List.head?_eq_some_iff.1 hop
    exact hnew hops hh
  · rw [uuidsOf_eq_ok_iff] at hu ⊢
    -- what is left of the run is taken up request by request
    induction after generalizing before with
    | nil => rwa [hops, List.append_nil]
    | cons op rest ih =>
      have hop : op ≠ .reset := fun e => hreset (hops ▸ e ▸ by simp)
      have hops' : ops = (before ++ [op]) ++ rest := by rw [hops, List.append_assoc]; rfl
      refine ih hops' ?_
      rw [run_append]
      exact (renumbered_after hop _).get? (fun m => hnew hops) hu

/-! ### Two short runs -/

/-- Mappings are restored ahead of the counter and behind it, and two numbers are handed
    out in between. -/
def scattered : List Operation :=
  [.restore ⟨5⟩ [.uniform 1] .concept, .nidFor [.uniform 2, .uniform 2], .restore ⟨-3⟩ [] .semantic,
    .nidFor [.uniform 3, .uniform 1], .allocate (.uniform 4)]

theorem run_never_reuses_on_scattered :
    (empty.run (scattered.take 1)).HandsOut (.nidFor [.uniform 2, .uniform 2]) ⟨6⟩ ∧
      (empty.run (scattered.take 1)).contains ⟨6⟩ = false ∧
      (empty.run (scattered.take 2)).uuidsOf ⟨6⟩ = .ok [.uniform 2] ∧
      (empty.run scattered).uuidsOf ⟨6⟩ = .ok [.uniform 2] := by
  have hreset : .reset ∉ scattered := by simp [scattered]
  have hwithin : empty.WithinNumbers scattered := by
    intro before op after n hops _
    have hfree : ∀ before ∈ scattered.inits, (empty.run before).contains .last = false := by
      decide
    exact hfree before ((List.mem_inits _ _).2 ⟨_, hops.symm⟩)
  have hhands : (empty.run (scattered.take 1)).HandsOut (.nidFor [.uniform 2, .uniform 2]) ⟨6⟩ :=
    .nidFor rfl rfl
  obtain ⟨hnew, -⟩ := run_never_reuses hreset hwithin (List.take_append_drop 1 scattered).symm
  obtain ⟨-, hkept⟩ := run_never_reuses hreset hwithin (List.take_append_drop 2 scattered).symm
  have huuids : (empty.run (scattered.take 2)).uuidsOf ⟨6⟩ = .ok [.uniform 2] := rfl
  exact ⟨hhands, hnew _ rfl _ hhands, huuids, hkept _ _ huuids⟩

/-- After the largest number is restored it is handed out once more, and then its
    identifiers are others. -/
theorem restored_last_is_reused :
    (empty.run [.restore .last [.uniform 1] .concept]).HandsOut (.nidFor [.uniform 2]) .last ∧
      (empty.run [.restore .last [.uniform 1] .concept]).contains .last = true ∧
      (empty.run [.restore .last [.uniform 1] .concept]).uuidsOf .last = .ok [.uniform 1] ∧
      (empty.run [.restore .last [.uniform 1] .concept, .nidFor [.uniform 2]]).uuidsOf .last =
        .ok [.uniform 2] :=
  ⟨.nidFor rfl rfl, by decide, rfl, rfl⟩

end Identities

end Bitemporal
