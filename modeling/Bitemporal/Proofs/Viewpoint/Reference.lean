import Bitemporal.Proofs.Viewpoint.Candidates
import Bitemporal.Proofs.Viewpoint.Making
import Mathlib

/-!
# Resolution by selection

What is the latest version of a history, said without taking up one version after
the other. Each committed version has its place in the list of commits; of those
that count, the greatest of each path is kept, as compared by time, then by the
rank of the module, then by place (`Reference.key`). The tie-break rules then
choose between the paths: a rule looks at all that remains at once, and asks the
lineage itself which path inherits from which.

* `latest_eq_reference`: every viewpoint that is made sees this version, or these
  versions, whatever the filter, the lineage, the rules and the history.
-/

namespace Bitemporal

namespace Reference

variable (filter : Filter) (l : Lineage) (window? : Nid → Option Timestamp)

/-- A version counts if it is committed, lies in the window of its path, and has
    a status and a module that the filter allows. -/
def Counts (a : Version) : Prop :=
  a.stamp.isUncommitted = false ∧ (∃ seen ∈ window? a.stamp.path, a.stamp.time ≤ seen) ∧
    filter.statuses.contains a.stamp.status = true ∧ filter.modules.allows a.stamp.module = true

instance : DecidablePred (Counts filter window?) := fun _ => inferInstanceAs (Decidable (_ ∧ _))

/-- The committed versions that count, with their places. -/
def counted (h : History) : List (Version × Nat) :=
  h.committed.zipIdx.filter fun a => Counts filter window? a.1

/-- What the versions of a path are compared by: first the time, then the rank of
    the module, of which the lower one is the better, then the place. -/
def Key : Type := ℤ ×ₗ ℕᵒᵈ ×ₗ ℕ

instance : LinearOrder Key :=
  -- the orders with which keys can be compared by evaluation
  letI : LinearOrder ℤ := Int.instLinearOrder
  letI : LinearOrder ℕ := Nat.instLinearOrder
  inferInstanceAs (LinearOrder (ℤ ×ₗ ℕᵒᵈ ×ₗ ℕ))

/-- The key of a version that has a place. -/
def key (a : Version × Nat) : Key :=
  toLex (a.1.stamp.time.millis.toInt,
    toLex (OrderDual.toDual (filter.modules.rank a.1.stamp.module), a.2))

/-- The greatest of the versions of a path. -/
def winner? (versions : List (Version × Nat)) (path : Nid) : Option Version :=
  ((versions.filter fun a => a.1.stamp.path = path).argmax (key filter)).map Prod.fst

/-- The greatest version of each path, in ascending order of the paths. -/
def winners (versions : List (Version × Nat)) : List Version :=
  (NidSet.ofList (versions.map fun a => a.1.stamp.path)).toList.filterMap (winner? filter versions)

/-- What a rule leaves of the versions that remain. -/
def leave (remaining : List Version) : TieBreak → List Version
  | .pathSpecificity => remaining.filter fun a =>
    ¬∃ b ∈ remaining, b ≠ a ∧ l.Inherits b.stamp.path a.stamp.path
  | .modulePriority =>
    match filter.modules with
    | .any => remaining
    | .prioritized modules => remaining.filter fun a =>
      ∀ b ∈ remaining, modules.idxOf a.stamp.module ≤ modules.idxOf b.stamp.module

/-- What the rules leave, each applied only while two versions remain. -/
def settle (rules : List TieBreak) (remaining : List Version) : List Version :=
  rules.foldl (fun remaining rule =>
    if 2 ≤ remaining.length then leave filter l remaining rule else remaining) remaining

/-- The latest version of a history. -/
def latest (order : TieBreakOrder) (h : History) : Latest :=
  .ofCandidates (settle filter l order.rules (winners filter (counted filter window? h)))

variable {filter l window?}

/-! ## What counts -/

variable {order : TieBreakOrder} {v : Viewpoint} {statuses : StatusSet}

theorem passes_iff_counts (hv : v.filter = filter) {a : Version} :
    v.passes statuses a = true ↔ Counts (filter.withStatuses statuses) v.window? a := by
  subst hv
  unfold Viewpoint.passes Viewpoint.inWindow Counts
  rw [Bool.and_eq_true, Bool.and_eq_true, Bool.and_eq_true, Bool.not_eq_true', and_assoc, and_assoc]
  refine and_congr_right' (and_congr_left' ?_)
  split
  · next seen hs => simp [hs]
  · next hs => simp [hs]

theorem map_fst_counted (hv : v.filter = filter) (h : History) :
    (counted (filter.withStatuses statuses) v.window? h).map Prod.fst =
      h.committed.filter (v.passes statuses) := by
  let counts := Counts (filter.withStatuses statuses) v.window?
  calc (h.committed.zipIdx.filter fun a => counts a.1).map Prod.fst
      = (h.committed.zipIdx.map Prod.fst).filter fun a => counts a := by rw [List.filter_map]; rfl
    _ = h.committed.filter fun a => counts a := by rw [List.zipIdx_map_fst]
    _ = h.committed.filter (v.passes statuses) := List.filter_congr fun a _ => by
        rw [Bool.eq_iff_iff, passes_iff_counts hv, decide_eq_true_iff]

theorem pairwise_zipIdx {α : Type} (l : List α) (place : Nat) :
    (l.zipIdx place).Pairwise fun a b => a.2 < b.2 := by
  induction l generalizing place with
  | nil => exact .nil
  | cons x rest ih =>
    rw [List.zipIdx_cons]
    exact .cons (fun b hb => List.le_snd_of_mem_zipIdx hb) (ih (place + 1))

/-! ## The greatest version of a path -/

/-- One key is less than another one if it is earlier, or if the time is the same and the other
    rank is better, or the rank too is the same and the place comes before. -/
theorem key_lt_iff {a b : Version × Nat} : key filter a < key filter b ↔
    a.1.stamp.time < b.1.stamp.time ∨ a.1.stamp.time = b.1.stamp.time ∧
      (filter.modules.rank b.1.stamp.module < filter.modules.rank a.1.stamp.module ∨
        filter.modules.rank b.1.stamp.module = filter.modules.rank a.1.stamp.module ∧
          a.2 < b.2) := by
  have hlex : key filter a < key filter b ↔ _ := Prod.Lex.toLex_lt_toLex
  have htime : a.1.stamp.time = b.1.stamp.time ↔
      a.1.stamp.time.millis.toInt = b.1.stamp.time.millis.toInt :=
    ⟨fun e => by rw [e], Timestamp.ext_toInt⟩
  simp only [hlex, Prod.Lex.toLex_lt_toLex, OrderDual.toDual_lt_toDual, OrderDual.toDual_inj,
    Timestamp.lt_iff, htime, eq_comm]

/-- A later version supersedes an earlier one exactly if it is the greater one. -/
theorem supersedes_iff_key_lt (hv : v.filter = filter) {a b : Version × Nat} (hab : a.2 < b.2) :
    v.supersedes b.1 a.1 = true ↔ key filter a < key filter b := by
  subst hv
  simp only [key_lt_iff, Viewpoint.supersedes, Viewpoint.rank, Bool.or_eq_true, Bool.and_eq_true,
    decide_eq_true_eq, Nat.le_iff_lt_or_eq, hab, and_true]
  exact or_congr_right (and_congr_left' eq_comm)

theorem winner?_concat (versions : List (Version × Nat)) (a : Version × Nat) (path : Nid) :
    winner? filter (versions ++ [a]) path =
      if a.1.stamp.path = path then
        some (match (versions.filter fun b => b.1.stamp.path = path).argmax (key filter) with
          | none => a.1
          | some held => if key filter held < key filter a then a.1 else held.1)
      else winner? filter versions path := by
  unfold winner?
  rw [List.filter_append]
  by_cases hp : a.1.stamp.path = path
  · rw [if_pos hp, List.filter_cons_of_pos (by simpa using hp), List.filter_nil, List.argmax_concat]
    cases (versions.filter fun b => b.1.stamp.path = path).argmax (key filter) with
    | none => rfl
    | some held => simp only []; split <;> rfl
  · rw [if_neg hp, List.filter_cons_of_neg (by simpa using hp), List.filter_nil, List.append_nil]

/-- The candidate of each path is its greatest version. -/
theorem onPath?_candidates (hv : v.filter = filter) {versions : List (Version × Nat)}
    (hp : versions.Pairwise fun a b => a.2 < b.2) (path : Nid) :
    Viewpoint.onPath? path (v.candidates (versions.map Prod.fst)) =
      winner? filter versions path := by
  induction versions using List.reverseRecOn with
  | nil => rfl
  | append_singleton versions a ih =>
    obtain ⟨hversions, -, hlast⟩ := List.pairwise_append.1 hp
    rw [List.map_append, List.map_singleton, Viewpoint.candidates_concat,
      Viewpoint.onPath?_contend (Viewpoint.pathsAscend_candidates _), winner?_concat,
      ih hversions, winner?]
    cases hw : (versions.filter fun b => b.1.stamp.path = path).argmax (key filter) with
    | none => rfl
    | some held =>
      have hmem : held ∈ versions := (List.mem_filter.1 (List.argmax_mem hw)).1
      have hs := supersedes_iff_key_lt hv (hlast held hmem a (List.mem_singleton_self a))
      simp only [Option.map_some, hs]

theorem winners_eq_candidates (hv : v.filter = filter) {versions : List (Version × Nat)}
    (hp : versions.Pairwise fun a b => a.2 < b.2) :
    winners filter versions = v.candidates (versions.map Prod.fst) := by
  have hasc := Viewpoint.pathsAscend_candidates (v := v) (versions.map Prod.fst)
  have hpaths : (NidSet.ofList (versions.map fun a => a.1.stamp.path)).toList =
      (v.candidates (versions.map Prod.fst)).map fun a => a.stamp.path := by
    refine NidSet.eq_of_ascending (NidSet.ascending _) (List.pairwise_map.2 hasc) fun x => ?_
    rw [NidSet.mem_toList, NidSet.mem_ofList, Viewpoint.map_path_candidates, List.map_map]
    rfl
  rw [winners, hpaths, ← funext (onPath?_candidates hv hp)]
  exact hasc.filterMap_onPath?

/-! ## The rules -/

theorem eq_of_path_eq {c : List Version} (hd : c.Pairwise fun a b => a.stamp.path ≠ b.stamp.path)
    {a b : Version} (ha : a ∈ c) (hb : b ∈ c) (h : a.stamp.path = b.stamp.path) : a = b :=
  List.inj_on_of_nodup_map (List.pairwise_map.2 hd) ha hb h

theorem mostSpecific_eq_leave (hv : Viewpoint.make filter l order = .ok v) {c : List Version}
    (hd : c.Pairwise fun a b => a.stamp.path ≠ b.stamp.path)
    (hw : ∀ a ∈ c, (v.window? a.stamp.path).isSome) :
    v.mostSpecific c = leave filter l c .pathSpecificity := by
  refine List.filter_congr fun a ha => ?_
  rw [Bool.eq_iff_iff, Bool.not_eq_true', ← Bool.not_eq_true, List.any_eq_true, decide_eq_true_iff]
  refine not_congr (exists_congr fun b => and_congr_right fun hb => ?_)
  rw [Bool.and_eq_true, decide_eq_true_iff, Viewpoint.isAncestor_iff hv (hw b hb)]
  refine and_congr_left' (not_congr ⟨fun h => eq_of_path_eq hd hb ha h, fun h => ?_⟩)
  rw [h]

theorem choose_eq_leave (hv : Viewpoint.make filter l order = .ok v) {c : List Version}
    (hd : c.Pairwise fun a b => a.stamp.path ≠ b.stamp.path)
    (hw : ∀ a ∈ c, (v.window? a.stamp.path).isSome) (rule : TieBreak) :
    v.choose c rule = leave filter l c rule := by
  obtain ⟨hf, -⟩ := Viewpoint.make_eq_ok hv
  cases rule with
  | pathSpecificity => exact mostSpecific_eq_leave hv hd hw
  | modulePriority =>
    rw [Viewpoint.choose, hf, leave]
    cases hm : filter.modules with
    | any => rfl
    | prioritized modules =>
      refine List.filter_congr fun a _ => ?_
      rw [Bool.eq_iff_iff, List.all_eq_true, decide_eq_true_iff]
      simp only [Viewpoint.rank, hf, hm, ModuleFilter.rank, decide_eq_true_iff]

/-- A rule drops candidates and keeps the others as they are. -/
theorem leave_sublist (c : List Version) (rule : TieBreak) :
    (leave filter l c rule).Sublist c := by
  cases rule with
  | pathSpecificity => exact List.filter_sublist
  | modulePriority =>
    rw [leave]
    split
    · exact .refl c
    · exact List.filter_sublist

theorem settle_of_length_lt_two (rules : List TieBreak) {c : List Version} (hc : c.length < 2) :
    settle filter l rules c = c := by
  induction rules with
  | nil => rfl
  | cons rule rules ih => simpa [settle, Nat.not_le.2 hc] using ih

/-- To stop at fewer than two candidates is to leave them as they are until the
    rules are used up. -/
theorem chooseAll_eq_settle (hv : Viewpoint.make filter l order = .ok v) (rules : List TieBreak)
    {c : List Version} (hd : c.Pairwise fun a b => a.stamp.path ≠ b.stamp.path)
    (hw : ∀ a ∈ c, (v.window? a.stamp.path).isSome) :
    v.chooseAll c rules = settle filter l rules c := by
  induction rules generalizing c with
  | nil => rfl
  | cons rule rules ih =>
    rw [Viewpoint.chooseAll]
    split
    · next hc => exact (settle_of_length_lt_two (rule :: rules) hc).symm
    · next hc =>
      have hsub : (leave filter l c rule).Sublist c := leave_sublist c rule
      rw [choose_eq_leave hv hd hw, ih (hd.sublist hsub) fun a ha => hw a (hsub.subset ha), settle,
        settle, List.foldl_cons, if_pos (Nat.not_lt.1 hc)]

/-! ## Resolution -/

/-- The selection among the versions of given statuses, whichever the filter
    allows. -/
theorem resolve_eq_latest (hv : Viewpoint.make filter l order = .ok v) (h : History) :
    v.resolve statuses h = latest (filter.withStatuses statuses) l v.window? order h := by
  obtain ⟨hf, ht, -⟩ := Viewpoint.make_eq_ok hv
  have hplaces : (counted (filter.withStatuses statuses) v.window? h).Pairwise
      fun a b => a.2 < b.2 := (pairwise_zipIdx h.committed 0).filter _
  have hwin := winners_eq_candidates hf hplaces
  rw [map_fst_counted hf] at hwin
  have hseen : ∀ a ∈ v.candidates (h.committed.filter (v.passes statuses)),
      (v.window? a.stamp.path).isSome :=
    fun a ha => Viewpoint.isSome_window?_of_mem_candidates ha
  -- the statuses are looked at in what counts and nowhere else
  show v.resolve statuses h = .ofCandidates (settle filter l order.rules (winners filter _))
  rw [hwin, Viewpoint.resolve, ht,
    chooseAll_eq_settle hv _ (Viewpoint.pathsAscend_candidates _).path_ne hseen]

end Reference

/-- What a viewpoint sees of a history is what the selection leaves. -/
theorem latest_eq_reference {filter : Filter} {l : Lineage} {order : TieBreakOrder} {v : Viewpoint}
    (hv : Viewpoint.make filter l order = .ok v) (h : History) :
    v.latest h = Reference.latest filter l v.window? order h := by
  rw [Viewpoint.latest, (Viewpoint.make_eq_ok hv).1]
  exact Reference.resolve_eq_latest hv h

open Viewpoint.Fork in
theorem latest_eq_reference_on_fork :
    ∃ v, Viewpoint.make bothBranches lineage .standard = .ok v ∧
      v.latest history = .present (version ⟨3⟩ ⟨8⟩ ⟨160⟩) ∧
      v.latest history = Reference.latest bothBranches lineage v.window? .standard history := by
  obtain ⟨v, hv, hl⟩ : ∃ v, Viewpoint.make bothBranches lineage .standard = .ok v ∧
      v.latest history = .present (version ⟨3⟩ ⟨8⟩ ⟨160⟩) := ⟨_, by cbv, by cbv⟩
  exact ⟨v, hv, hl, latest_eq_reference hv history⟩

end Bitemporal
