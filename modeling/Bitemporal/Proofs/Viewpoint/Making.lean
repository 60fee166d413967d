import Bitemporal.Proofs.Lineage
import Bitemporal.Proofs.Refusal
import Bitemporal.Viewpoint

/-!
# Viewpoints that were made

What is known of a viewpoint that was made from a filter, a lineage and an order
of tie-break rules: it keeps the filter and the rules as they are, and for every
path with a window it answers the questions about ancestors as the lineage would
(`isAncestor_iff`). No such path inherits from itself (`not_inherits_self_of_make`),
or the viewpoint would have been refused.
-/

namespace Bitemporal.Viewpoint

variable {filter : Filter} {l : Lineage} {order : TieBreakOrder} {v : Viewpoint}

/-- Taking up the ancestors of paths one after the other, what is in the table
    stays there or is replaced by the same set. -/
theorem get?_foldlM_insert {paths : List Nid} {t t' : Table Nid NidSet}
    (h : paths.foldlM (fun t path => do return t.insert path (← l.ancestors path)) t = .ok t')
    {path : Nid}
    (hp : path ∈ paths ∨ ∃ s, t.get? path = some s ∧ l.ancestors path = .ok s) :
    ∃ s, t'.get? path = some s ∧ l.ancestors path = .ok s := by
  induction paths generalizing t with
  | nil =>
    obtain rfl := pure_eq_ok_iff.1 h
    exact hp.resolve_left List.not_mem_nil
  | cons p rest ih =>
    rw [List.foldlM_cons] at h
    obtain ⟨t₁, ht₁, h⟩ := bind_eq_ok_iff.1 h
    obtain ⟨s, hs, ht₁⟩ := bind_eq_ok_iff.1 ht₁
    obtain rfl := pure_eq_ok_iff.1 ht₁
    refine ih h ?_
    by_cases hpp : p = path
    · subst hpp
      exact .inr ⟨s, Table.get?_insert_self t p s, hs⟩
    · rw [Table.get?_insert_of_ne t s hpp]
      rcases hp with hp | hp
      · exact .inl ((List.mem_cons.1 hp).resolve_left (Ne.symm hpp))
      · exact .inr hp

/-- What making a viewpoint establishes. -/
theorem make_eq_ok (h : make filter l order = .ok v) :
    v.filter = filter ∧ v.tieBreaks = order ∧ v.windows = l.windows filter.positions ∧
      ancestorsOf l v.windows.keys = .ok v.ancestors := by
  obtain ⟨_, -, h⟩ := bind_eq_ok_iff.1 h
  obtain ⟨t, ht, h⟩ := bind_eq_ok_iff.1 h
  obtain rfl := pure_eq_ok_iff.1 h
  exact ⟨rfl, rfl, rfl, ht⟩

theorem get?_ancestors (h : make filter l order = .ok v) {path : Nid}
    (hw : (v.window? path).isSome) :
    ∃ s, v.ancestors.get? path = some s ∧ l.ancestors path = .ok s :=
  get?_foldlM_insert (make_eq_ok h).2.2.2 (.inl (Table.contains_iff_mem_keys.1 hw))

/-- The ancestors that a viewpoint keeps are those of the lineage. -/
theorem isAncestor_iff (h : make filter l order = .ok v) {path other : Nid}
    (hw : (v.window? other).isSome) : v.isAncestor path other = true ↔ l.Inherits other path := by
  obtain ⟨s, hs, ha⟩ := get?_ancestors h hw
  rw [isAncestor, hs, ← Lineage.mem_ancestors_iff ha, decide_eq_true_iff]

/-- No path that is seen inherits from itself. -/
theorem not_inherits_self_of_make (h : make filter l order = .ok v) {path : Nid}
    (hw : (v.window? path).isSome) : ¬l.Inherits path path := by
  obtain ⟨s, -, ha⟩ := get?_ancestors h hw
  exact Lineage.not_inherits_self (Lineage.ancestors_eq_ok ha).1 .refl

/-! ## A fork

Two branches of a trunk, and a reader who stands on both. The theorems on viewpoints
are applied to it where they are stated. -/

namespace Fork

/-- The paths 2 and 3 leave the path 1 at one time. -/
def lineage : Lineage := ⟨⟨[(⟨2⟩, [⟨⟨1⟩, ⟨100⟩⟩]), (⟨3⟩, [⟨⟨1⟩, ⟨100⟩⟩])]⟩⟩

/-- Both branches are seen, and the module 8 is preferred to the module 9. -/
def bothBranches : Filter where
  statuses := .active
  positions := [⟨⟨2⟩, ⟨200⟩⟩, ⟨⟨3⟩, ⟨200⟩⟩]
  modules := .prioritized [⟨8⟩, ⟨9⟩]
  languages := []
  positions_ne_nil := by simp
  nodup_paths := by decide

/-- A version of a concept. -/
def version (path module : Nid) (time : Timestamp) : Version where
  stamp := { status := .active, time, author := ⟨7⟩, module, path }
  seq := ⟨1⟩
  payload := .bare

/-- Versions on all three paths, three of them made on one path at one time. -/
def history : History where
  nid := ⟨5⟩
  shape := .concept
  committed := [version ⟨1⟩ ⟨8⟩ ⟨50⟩, version ⟨2⟩ ⟨9⟩ ⟨150⟩, version ⟨3⟩ ⟨9⟩ ⟨160⟩,
    version ⟨3⟩ ⟨8⟩ ⟨160⟩, version ⟨3⟩ ⟨9⟩ ⟨160⟩]

end Fork

end Bitemporal.Viewpoint
