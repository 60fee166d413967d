import Bitemporal.Proofs.StampTable
import Mathlib.Data.List.Nodup

/-!
# One number for each stamp

A stamp that is interned twice gets the same number, since it is looked up before it is
added. A row of a record is not looked up: it is added if its number is the next one,
whatever its stamp. So a record may give another number to a stamp that is interned
already (`StampTable.Renumbered`), and from then on the stamp is looked up under that
number, while the one that it had before still stands for it.

This is the only way. What becomes of a stamp in a request, a row or a run is one of two
things (`StampTable.Placed`): its last place stays, or a record puts it behind all that
there was. Hence interning is permanent for the stamps that no record renumbers, and two
numbers stand for one stamp just when a record renumbered some stamp
(`StampTable.run_numbers_once`).
-/

namespace Bitemporal.StampTable

open Store (foundingStamp)

variable {t t' t'' : StampTable} {stamp : Stamp} {seq : StampSeq}

/-- The stamps after a list of requests. -/
def run (t : StampTable) (ops : List Operation) : StampTable :=
  ops.foldl after t

theorem run_append (t : StampTable) (ops ops' : List Operation) :
    t.run (ops ++ ops') = (t.run ops).run ops' :=
  List.foldl_append

theorem Coherent.run (ht : t.Coherent) (ops : List Operation) : (t.run ops).Coherent := by
  induction ops generalizing t with
  | nil => exact ht
  | cons op ops ih => exact ih (ht.after op)

theorem growsTo_run {ops : List Operation} (hreset : .reset ∉ ops) (t : StampTable) :
    t.GrowsTo (t.run ops) := by
  induction ops generalizing t with
  | nil => exact .refl t
  | cons op ops ih =>
    rw [List.mem_cons, not_or] at hreset
    exact (growsTo_after (Ne.symm hreset.1) t).trans (ih hreset.2 _)

/-! ## Renumbering -/

/-- One of the rows that are read into a table continues it with a stamp that is interned
    already. -/
def RowsRenumber (stamp : Stamp) : StampTable → List Record.StampRow → Prop
  | _, [] => False
  | t, row :: rest =>
    match t.restoreRow row with
    | .error _ => False
    | .ok t' => (stamp ∈ t.stamps ∧ t' = t.push stamp) ∨ RowsRenumber stamp t' rest

/-- A request gives another number to a stamp. -/
def Operation.Renumbers (stamp : Stamp) (t : StampTable) : Operation → Prop
  | .restore rows => RowsRenumber stamp t rows
  | _ => False

/-- One of the requests of a run gives another number to a stamp. -/
def Renumbered (stamp : Stamp) : StampTable → List Operation → Prop
  | _, [] => False
  | t, op :: ops => op.Renumbers stamp t ∨ Renumbered stamp (t.after op) ops

/-! ## Last places -/

theorem seqOfPlace_ne {place place' : Nat} (h : place < place') (h' : place' + 1 < UInt32.size) :
    seqOfPlace place ≠ seqOfPlace place' := by
  intro heq
  have hval : place + 1 = place' + 1 := by
    rw [← val_seqOfPlace h', ← heq, val_seqOfPlace (by omega)]
  omega

/-- What may become of the last place of an interned stamp: it stays, or the stamp is
    renumbered and comes behind all that was there. -/
inductive Placed (stamp : Stamp) (renumbered : Prop) (t t' : StampTable) : Prop
  | kept : ¬ renumbered → lastPlace? stamp t'.stamps = lastPlace? stamp t.stamps →
      Placed stamp renumbered t t'
  | moved {place : Nat} : renumbered → lastPlace? stamp t'.stamps = some place →
      t.size ≤ place → place + 1 < UInt32.size → Placed stamp renumbered t t'

theorem Placed.refl (t : StampTable) : Placed stamp False t t :=
  .kept id rfl

theorem Placed.trans {r r' : Prop} (h : Placed stamp r t t') (hle : t.size ≤ t'.size)
    (h' : Placed stamp r' t' t'') : Placed stamp (r ∨ r') t t'' := by
  cases h' with
  | moved hr hp hsize hlt => exact .moved (.inr hr) hp (Nat.le_trans hle hsize) hlt
  | kept hr' hkept' =>
    cases h with
    | kept hr hkept => exact .kept (not_or.2 ⟨hr, hr'⟩) (hkept'.trans hkept)
    | moved hr hp hsize hlt => exact .moved (.inl hr) (hkept'.trans hp) hsize hlt

/-- A stamp is pushed that is not the one looked at. -/
theorem lastPlace?_push_of_ne {s : Stamp} (h : s ≠ stamp) :
    lastPlace? stamp (t.push s).stamps = lastPlace? stamp t.stamps := by
  rw [stamps_push, lastPlace?_concat, if_neg h]

theorem push_inj {s s' : Stamp} : t.push s = t.push s' ↔ s = s' := by
  refine ⟨fun h => ?_, fun h => by rw [h]⟩
  have hstamps := congrArg stamps h
  simpa [stamps_push] using hstamps

theorem placed_restoreRow {row : Record.StampRow} (hs : stamp ∈ t.stamps)
    (h : t.restoreRow row = .ok t') :
    Placed stamp (stamp ∈ t.stamps ∧ t' = t.push stamp) t t' := by
  obtain rfl | ⟨rfl, hseq, -⟩ := restoreRow_eq_ok h
  · exact .kept (fun hpush => push_ne_self _ _ hpush.2.symm) rfl
  · by_cases hrow : row.stamp = stamp
    · have hlast : lastPlace? stamp (t.push row.stamp).stamps = some t.size := by
        rw [stamps_push, lastPlace?_concat, if_pos hrow]
        rfl
      refine .moved ⟨hs, by rw [hrow]⟩ hlast (Nat.le_refl _) ?_
      rw [← hseq]
      exact row.seq.val.toNat_lt
    · exact .kept (fun hpush => hrow (push_inj.1 hpush.2)) (lastPlace?_push_of_ne hrow)

theorem placed_restore (hs : stamp ∈ t.stamps) (rows : List Record.StampRow) :
    Placed stamp (RowsRenumber stamp t rows) t (t.restore rows).2 := by
  induction rows generalizing t with
  | nil => exact .refl t
  | cons row rest ih =>
    rw [restore, RowsRenumber]
    cases h : t.restoreRow row with
    | error e => exact .refl t
    | ok t' =>
      have hgrow := growsTo_restoreRow h
      exact (placed_restoreRow hs h).trans hgrow.size_le (ih (hgrow.stamps.subset hs))

theorem placed_after {op : Operation} (hop : op ≠ .reset) (ht : t.Coherent)
    (hs : stamp ∈ t.stamps) : Placed stamp (op.Renumbers stamp t) t (t.after op) := by
  cases op with
  | intern s =>
    rw [after]
    split
    · next seq t' h =>
      obtain ⟨-, ⟨-, rfl⟩ | ⟨hnone, -, rfl⟩⟩ := intern_eq_ok h
      · exact .refl t'
      · -- what is pushed was not interned
        refine .kept id (lastPlace?_push_of_ne fun heq => ?_)
        exact ht.seq?_eq_none_iff.1 hnone (heq ▸ hs)
    · exact .refl t
  | restore rows => exact placed_restore hs rows
  | reset => exact absurd rfl hop

theorem placed_run {ops : List Operation} (hreset : .reset ∉ ops) (ht : t.Coherent)
    (hs : stamp ∈ t.stamps) : Placed stamp (Renumbered stamp t ops) t (t.run ops) := by
  induction ops generalizing t with
  | nil => exact .refl t
  | cons op ops ih =>
    rw [List.mem_cons, not_or] at hreset
    have hop : op ≠ .reset := Ne.symm hreset.1
    have hgrow := growsTo_after hop t
    exact (placed_after hop ht hs).trans hgrow.size_le
      (ih hreset.2 (ht.after op) (hgrow.stamps.subset hs))

/-! ## Looking up -/

theorem seq?_of_intern (h : t.intern stamp = .ok (seq, t')) : t'.seq? stamp = some seq := by
  obtain ⟨-, ⟨hs, rfl⟩ | ⟨-, rfl, rfl⟩⟩ := intern_eq_ok h
  · exact hs
  · rw [seq?_push, if_pos rfl]

theorem intern_eq_self_iff (hc : stamp.isUncommitted = false) :
    t.intern stamp = .ok (seq, t) ↔ t.seq? stamp = some seq := by
  refine ⟨seq?_of_intern, fun h => ?_⟩
  simp [intern, hc, h]

/-- A stamp is looked up under the number that it had just when it was not renumbered. -/
theorem Placed.seq?_iff {r : Prop} (h : Placed stamp r t t') (ht : t.Coherent)
    (ht' : t'.Coherent) (hs : t.seq? stamp = some seq) : t'.seq? stamp = some seq ↔ ¬ r := by
  cases h with
  | kept hr hkept =>
    rw [ht.seq?_eq] at hs
    simpa [hr, ht'.seq?_eq, hkept] using hs
  | @moved place hr hp hsize hlt =>
    obtain ⟨before, hbefore, rfl⟩ := ht.seq?_eq_some_iff.1 hs
    have hbelow : before < t.size :=
      (List.getElem?_eq_some_iff.1 (getElem?_of_lastPlace? hbefore)).1
    have hne := seqOfPlace_ne (Nat.lt_of_lt_of_le hbelow hsize) hlt
    simpa [hr, ht'.seq?_eq, hp] using hne.symm

/-! ## Two numbers for one stamp -/

/-- A stamp has two places, both of which have a number. -/
def TwicePlaced (stamp : Stamp) (t : StampTable) : Prop :=
  ∃ place place', place < place' ∧ place' + 1 < UInt32.size ∧
    t.stamps[place]? = some stamp ∧ t.stamps[place']? = some stamp

theorem GrowsTo.twicePlaced (h : t.GrowsTo t') (ht : TwicePlaced stamp t) :
    TwicePlaced stamp t' := by
  obtain ⟨place, place', hlt, hsize, hs, hs'⟩ := ht
  obtain ⟨later, hlater⟩ := h.stamps
  refine ⟨place, place', hlt, hsize, ?_, ?_⟩
  · rw [← hlater, List.getElem?_append_left (List.getElem?_eq_some_iff.1 hs).1, hs]
  · rw [← hlater, List.getElem?_append_left (List.getElem?_eq_some_iff.1 hs').1, hs']

theorem twicePlaced_of_rowsRenumber {rows : List Record.StampRow}
    (h : RowsRenumber stamp t rows) : TwicePlaced stamp (t.restore rows).2 := by
  induction rows generalizing t with
  | nil => exact h.elim
  | cons row rest ih =>
    rw [RowsRenumber] at h
    rw [restore]
    cases hrow : t.restoreRow row with
    | error e =>
      rw [hrow] at h
      exact h.elim
    | ok t' =>
      rw [hrow] at h
      rcases h with ⟨hs, ht'⟩ | h
      · refine (growsTo_restore t' rest).twicePlaced ?_
        obtain ⟨place, hp⟩ := List.mem_iff_getElem?.1 hs
        have hbelow : place < t.size := (List.getElem?_eq_some_iff.1 hp).1
        obtain rfl | ⟨-, hseq, -⟩ := restoreRow_eq_ok hrow
        · exact absurd ht'.symm (push_ne_self _ _)
        · refine ⟨place, t.size, hbelow, hseq ▸ row.seq.val.toNat_lt, ?_, ?_⟩
          · rw [ht', stamps_push, List.getElem?_append_left hbelow, hp]
          · rw [ht']
            exact List.getElem?_concat_length
      · exact ih h

theorem twicePlaced_of_renumbered {ops : List Operation} (hreset : .reset ∉ ops)
    (h : Renumbered stamp t ops) : TwicePlaced stamp (t.run ops) := by
  induction ops generalizing t with
  | nil => exact h.elim
  | cons op ops ih =>
    rw [List.mem_cons, not_or] at hreset
    rcases h with h | h
    · cases op with
      | restore rows => exact (growsTo_run hreset.2 _).twicePlaced (twicePlaced_of_rowsRenumber h)
      | _ => exact h.elim
    · exact ih hreset.2 h

theorem nodup_push (ht : t.stamps.Nodup) (hs : stamp ∉ t.stamps) : (t.push stamp).stamps.Nodup := by
  rw [stamps_push, ← List.concat_eq_append]
  exact List.Nodup.concat hs ht

/-- As long as no record renumbers a stamp, no stamp stands twice. -/
theorem nodup_restore {rows : List Record.StampRow} (ht : t.stamps.Nodup)
    (h : ∀ stamp, ¬ RowsRenumber stamp t rows) : (t.restore rows).2.stamps.Nodup := by
  induction rows generalizing t with
  | nil => exact ht
  | cons row rest ih =>
    simp only [RowsRenumber] at h
    rw [restore]
    cases hrow : t.restoreRow row with
    | error e => exact ht
    | ok t' =>
      simp only [hrow, not_or, not_and] at h
      refine ih ?_ fun stamp => (h stamp).2
      obtain rfl | ⟨rfl, -, -⟩ := restoreRow_eq_ok hrow
      · exact ht
      · exact nodup_push ht fun hs => (h row.stamp).1 hs rfl

theorem nodup_run {ops : List Operation} (hreset : .reset ∉ ops) (hc : t.Coherent)
    (ht : t.stamps.Nodup) (h : ∀ stamp, ¬ Renumbered stamp t ops) :
    (t.run ops).stamps.Nodup := by
  induction ops generalizing t with
  | nil => exact ht
  | cons op ops ih =>
    rw [List.mem_cons, not_or] at hreset
    simp only [Renumbered, not_or] at h
    refine ih hreset.2 (hc.after op) ?_ fun stamp => (h stamp).2
    cases op with
    | intern s =>
      rw [after]
      split
      · next seq t' hi =>
        obtain ⟨-, ⟨-, rfl⟩ | ⟨hnone, -, rfl⟩⟩ := intern_eq_ok hi
        · exact ht
        · exact nodup_push ht (hc.seq?_eq_none_iff.1 hnone)
      · exact ht
    | restore rows => exact nodup_restore ht fun stamp => (h stamp).1
    | reset => exact absurd rfl hreset.1

/-- Two numbers that stand for one stamp are the same. -/
def Unambiguous (t : StampTable) : Prop :=
  ∀ seq seq' stamp, t.stamp seq = .ok stamp → t.stamp seq' = .ok stamp → seq = seq'

theorem unambiguous_of_nodup (ht : t.stamps.Nodup) : t.Unambiguous := by
  intro seq seq' stamp hs hs'
  obtain ⟨hzero, hs⟩ := stamp_eq_ok hs
  obtain ⟨hzero', hs'⟩ := stamp_eq_ok hs'
  have hlt := (List.getElem?_eq_some_iff.1 hs).1
  have hplace := (List.getElem?_inj hlt ht).1 (hs.trans hs'.symm)
  have hpos : seq.val.toNat ≠ 0 := fun e => hzero (UInt32.toNat_inj.1 e)
  have hpos' : seq'.val.toNat ≠ 0 := fun e => hzero' (UInt32.toNat_inj.1 e)
  have hval : seq.val = seq'.val := UInt32.toNat_inj.1 (by omega)
  exact congrArg StampSeq.mk hval

theorem TwicePlaced.not_unambiguous (h : TwicePlaced stamp t) : ¬ t.Unambiguous := by
  obtain ⟨place, place', hlt, hsize, hs, hs'⟩ := h
  intro ht
  exact seqOfPlace_ne hlt hsize
    (ht _ _ stamp (stamp_seqOfPlace (by omega) hs) (stamp_seqOfPlace hsize hs'))

/-! ## Runs -/

/-- In a run without a reset, a number that a stamp is given stays its number as long as no
    record renumbers the stamp, and no longer; and at its end no two numbers stand for
    one stamp just when no record renumbered any. -/
theorem run_numbers_once {ops : List Operation} (hreset : .reset ∉ ops) :
    (∀ before after stamp seq t, ops = before ++ .intern stamp :: after →
      (empty.run before).intern stamp = .ok (seq, t) →
      ((empty.run ops).seq? stamp = some seq ↔ ¬ Renumbered stamp t after) ∧
      ((empty.run ops).intern stamp = .ok (seq, empty.run ops) ↔ ¬ Renumbered stamp t after)) ∧
    ((empty.run ops).Unambiguous ↔ ∀ stamp, ¬ Renumbered stamp empty ops) := by
  refine ⟨fun before after stamp seq t hops hi => ?_, fun h stamp hs => ?_, fun h => ?_⟩
  · have hrun : empty.run ops = t.run after := by
      rw [hops, run_append]
      show ((empty.run before).after (.intern stamp)).run after = _
      rw [StampTable.after, hi]
    have hreset' : .reset ∉ after := fun hm => hreset (hops ▸ by simp [hm])
    have hcoherent : t.Coherent := (growsTo_intern hi).coherent (coherent_empty.run before)
    have hseq := seq?_of_intern hi
    obtain ⟨place, hp, -⟩ := hcoherent.places hseq
    have hs : stamp ∈ t.stamps := List.mem_of_getElem? hp
    have hstays := (placed_run hreset' hcoherent hs).seq?_iff hcoherent (hcoherent.run after) hseq
    rw [hrun, intern_eq_self_iff (intern_eq_ok hi).1]
    exact ⟨hstays, hstays⟩
  · exact (twicePlaced_of_renumbered hreset hs).not_unambiguous h
  · exact unambiguous_of_nodup (nodup_run hreset coherent_empty List.nodup_nil h)

/-- A record repeats the first stamp under its number and continues with another one; what
    does not continue the table is refused. -/
def agreeing : List Operation :=
  [.intern (foundingStamp ⟨5⟩),
    .restore [⟨⟨1⟩, foundingStamp ⟨5⟩⟩, ⟨⟨2⟩, foundingStamp ⟨7⟩⟩, ⟨⟨4⟩, foundingStamp ⟨5⟩⟩],
    .intern (foundingStamp ⟨6⟩)]

theorem run_numbers_once_on_agreeing :
    .reset ∉ agreeing ∧ (empty.intern (foundingStamp ⟨5⟩)).map Prod.fst = .ok ⟨1⟩ ∧
      (empty.run agreeing).seq? (foundingStamp ⟨5⟩) = some ⟨1⟩ ∧
      (empty.run agreeing).intern (foundingStamp ⟨5⟩) = .ok (⟨1⟩, empty.run agreeing) ∧
      (empty.run agreeing).size = 3 ∧ (empty.run agreeing).Unambiguous := by
  have hreset : .reset ∉ agreeing := by simp [agreeing]
  -- the only row that continues the table has a stamp of its own
  have hfresh : ∀ stamp,
      ¬ Renumbered stamp (empty.push (foundingStamp ⟨5⟩)) (agreeing.drop 1) := by
    rintro stamp ((⟨-, hpush⟩ | ⟨hs, hpush⟩ | h) | h | h)
    · exact push_ne_self _ _ hpush.symm
    · rw [List.mem_singleton.1 hs] at hpush
      exact absurd hpush (by decide)
    · exact h.elim
    · exact h.elim
    · exact h.elim
  obtain ⟨hpermanent, hunambiguous⟩ := run_numbers_once hreset
  obtain ⟨hlookup, hintern⟩ := hpermanent [] _ (foundingStamp ⟨5⟩) ⟨1⟩
    (empty.push (foundingStamp ⟨5⟩)) rfl rfl
  refine ⟨hreset, rfl, hlookup.2 (hfresh _), hintern.2 (hfresh _), rfl, hunambiguous.2 ?_⟩
  rintro stamp (h | h)
  · exact h.elim
  · exact hfresh stamp h

/-- A record that continues the table with an interned stamp is accepted, and then the
    stamp has two numbers and is interned under the second. -/
theorem restored_stamp_is_renumbered :
    let ops := [.intern (foundingStamp ⟨5⟩), .restore [⟨⟨2⟩, foundingStamp ⟨5⟩⟩]]
    (empty.intern (foundingStamp ⟨5⟩)).map Prod.fst = .ok ⟨1⟩ ∧
      ((empty.run ops).intern (foundingStamp ⟨5⟩)).map Prod.fst = .ok ⟨2⟩ ∧
      (empty.run ops).stamp ⟨1⟩ = .ok (foundingStamp ⟨5⟩) ∧
      (empty.run ops).stamp ⟨2⟩ = .ok (foundingStamp ⟨5⟩) :=
  ⟨rfl, rfl, rfl, rfl⟩

end Bitemporal.StampTable
