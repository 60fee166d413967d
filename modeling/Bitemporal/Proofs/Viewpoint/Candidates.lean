import Bitemporal.Viewpoint
import Mathlib.Data.List.Basic
import Mathlib.Data.List.Induction

/-!
# Candidates of paths

The versions of a history are taken up one after the other, and a list of
candidates in ascending order of their paths is kept. It is looked at through the
candidate of each path (`onPath?`): taking up a version changes the candidate of
its own path only (`onPath?_contend`).

A list in this order is determined by its candidates
(`PathsAscend.filterMap_onPath?`), so two ways of finding them are compared path by
path.
-/

namespace Bitemporal.Viewpoint

/-- The paths of a list of versions ascend, so there is one version per path. -/
def PathsAscend (l : List Version) : Prop :=
  l.Pairwise fun a b => a.stamp.path < b.stamp.path

/-- The version of a path among candidates. -/
def onPath? (path : Nid) (l : List Version) : Option Version :=
  l.find? fun a => a.stamp.path = path

variable {v : Viewpoint} {a : Version} {l : List Version} {path : Nid}

@[simp] theorem onPath?_nil : onPath? path [] = none := rfl

theorem onPath?_cons :
    onPath? path (a :: l) = if a.stamp.path = path then some a else onPath? path l := by
  rw [onPath?, List.find?_cons]
  by_cases h : a.stamp.path = path <;> simp [h, onPath?]

theorem onPath?_eq_none_iff : onPath? path l = none ↔ ∀ a ∈ l, a.stamp.path ≠ path := by
  simp [onPath?]

theorem PathsAscend.onPath?_eq_none (h : PathsAscend (a :: l)) {path : Nid}
    (hp : path < a.stamp.path ∨ path = a.stamp.path) : onPath? path l = none := by
  refine onPath?_eq_none_iff.2 fun b hb hbp => ?_
  have hab := (List.pairwise_cons.1 h).1 b hb
  rw [hbp] at hab
  rcases hp with hp | rfl
  · exact Nid.lt_irrefl _ (Nid.lt_trans hab hp)
  · exact Nid.lt_irrefl _ hab

theorem PathsAscend.path_ne (h : PathsAscend l) :
    l.Pairwise fun a b => a.stamp.path ≠ b.stamp.path := by
  refine h.imp fun hab e => ?_
  rw [e] at hab
  exact Nid.lt_irrefl _ hab

theorem PathsAscend.onPath?_of_mem (h : PathsAscend l) (ha : a ∈ l) :
    onPath? a.stamp.path l = some a := by
  induction l with
  | nil => simp at ha
  | cons b rest ih =>
    rw [onPath?_cons]
    rcases List.mem_cons.1 ha with rfl | ha
    · simp
    · rw [if_neg ((List.pairwise_cons.1 h.path_ne).1 a ha)]
      exact ih (List.pairwise_cons.1 h).2 ha

/-- Ascending candidates are listed by their paths. -/
theorem PathsAscend.filterMap_onPath? (h : PathsAscend l) :
    (l.map fun a => a.stamp.path).filterMap (onPath? · l) = l := by
  rw [List.filterMap_map]
  calc l.filterMap ((onPath? · l) ∘ fun a => a.stamp.path)
      = l.filterMap some := List.filterMap_congr fun a ha => h.onPath?_of_mem ha
    _ = l := List.filterMap_some

/-! ## Taking up a version -/

theorem mem_of_mem_contend {b : Version} (h : b ∈ v.contend a l) : b = a ∨ b ∈ l := by
  induction l with
  | nil => simpa [contend] using h
  | cons held rest ih =>
    unfold contend at h
    split at h
    · simpa using h
    · split at h
      · split at h <;> rcases List.mem_cons.1 h with rfl | h <;> simp [*]
      · rcases List.mem_cons.1 h with rfl | h
        · simp
        · rcases ih h with rfl | h <;> simp [*]

theorem map_path_contend {x : Nid} :
    x ∈ (v.contend a l).map (fun b => b.stamp.path) ↔
      x = a.stamp.path ∨ x ∈ l.map fun b => b.stamp.path := by
  induction l with
  | nil => simp [contend]
  | cons held rest ih =>
    unfold contend
    split
    · simp
    · split
      · next h => split <;> simp [h]
      · rw [List.map_cons, List.mem_cons, ih, List.map_cons, List.mem_cons]
        exact or_left_comm

theorem pathsAscend_contend (h : PathsAscend l) : PathsAscend (v.contend a l) := by
  induction l with
  | nil => simp [contend, PathsAscend]
  | cons held rest ih =>
    have hl := List.pairwise_cons.1 h
    unfold contend
    split
    · next hlt =>
      refine List.pairwise_cons.2 ⟨fun b hb => ?_, h⟩
      rcases List.mem_cons.1 hb with rfl | hb
      · exact hlt
      · exact Nid.lt_trans hlt (hl.1 b hb)
    · next hlt =>
      split
      · next heq =>
        split
        · exact List.pairwise_cons.2 ⟨fun b hb => heq ▸ hl.1 b hb, hl.2⟩
        · exact h
      · next hne =>
        refine List.pairwise_cons.2 ⟨fun b hb => ?_, ih hl.2⟩
        rcases mem_of_mem_contend hb with rfl | hb
        · exact Nid.lt_of_not_lt_of_ne hlt hne
        · exact hl.1 b hb

/-- Taking up a version changes the candidate of its path alone: the version takes
    its place if it supersedes it or if there is none. -/
theorem onPath?_contend (h : PathsAscend l) :
    onPath? path (v.contend a l) =
      if a.stamp.path = path then
        some (match onPath? path l with
          | none => a
          | some held => if v.supersedes a held then a else held)
      else onPath? path l := by
  induction l with
  | nil => simp [contend, onPath?_cons]
  | cons held rest ih =>
    unfold contend
    split
    · next hlt =>
      rw [onPath?_cons]
      split
      · next hp =>
        subst hp
        have hne : held.stamp.path ≠ a.stamp.path := fun e => Nid.lt_irrefl _ (e ▸ hlt)
        rw [onPath?_cons, if_neg hne, h.onPath?_eq_none (.inl hlt)]
      · rfl
    · next hlt =>
      split
      · next heq =>
        rw [onPath?_cons, onPath?_cons, heq]
        by_cases hp : held.stamp.path = path
        · by_cases hs : v.supersedes a held <;> simp [hp, hs, heq]
        · by_cases hs : v.supersedes a held <;> simp [hp, hs, heq]
      · next hne =>
        rw [onPath?_cons, onPath?_cons, ih (List.pairwise_cons.1 h).2]
        by_cases hp : held.stamp.path = path
        · subst hp
          simp [hne]
        · simp [hp]

/-! ## Taking up all versions -/

theorem candidates_concat (l : List Version) (a : Version) :
    v.candidates (l ++ [a]) = v.contend a (v.candidates l) := by
  simp [candidates]

theorem pathsAscend_candidates (l : List Version) : PathsAscend (v.candidates l) := by
  induction l using List.reverseRecOn with
  | nil => exact List.Pairwise.nil
  | append_singleton l a ih =>
    rw [candidates_concat]
    exact pathsAscend_contend ih

theorem mem_of_mem_candidates (h : a ∈ v.candidates l) : a ∈ l := by
  induction l using List.reverseRecOn with
  | nil => simp [candidates] at h
  | append_singleton l b ih =>
    rw [candidates_concat] at h
    rcases mem_of_mem_contend h with rfl | h
    · simp
    · exact List.mem_append_left _ (ih h)

/-- The candidates lie on the paths of the versions. -/
theorem map_path_candidates {x : Nid} :
    x ∈ (v.candidates l).map (fun b => b.stamp.path) ↔ x ∈ l.map fun b => b.stamp.path := by
  induction l using List.reverseRecOn with
  | nil => simp [candidates]
  | append_singleton l b ih =>
    rw [candidates_concat, map_path_contend, ih, List.map_append, List.mem_append, or_comm]
    simp

/-- A candidate lies on a path that is seen, whichever statuses count. -/
theorem isSome_window?_of_mem_candidates {statuses : StatusSet}
    (ha : a ∈ v.candidates (l.filter (v.passes statuses))) : (v.window? a.stamp.path).isSome := by
  have hp := (List.mem_filter.1 (mem_of_mem_candidates ha)).2
  rw [passes, Bool.and_eq_true, Bool.and_eq_true, inWindow, Bool.and_eq_true] at hp
  cases hw : v.window? a.stamp.path with
  | none => simp [hw] at hp
  | some seen => rfl

end Bitemporal.Viewpoint
