import Bitemporal.Proofs.Lineage

/-!
# Cycles of origins

A path leads to a cycle if some path that is reached from it over origins, possibly itself,
inherits from itself (`Lineage.LeadsToCycle`). A check of paths is refused just if one of
them leads to a cycle, and the path that the refusal names lies on one
(`checkPaths_eq_ok_iff`, `checkPaths_eq_error`). So the check of the whole lineage is
refused just if there is a cycle at all (`check_eq_ok_iff`): a path on a cycle has an origin,
and so it was declared.
-/

namespace Bitemporal.Lineage

/-- A path that inherits from itself is reached over origins. -/
def LeadsToCycle (l : Lineage) (path : Nid) : Prop :=
  ∃ other, Relation.ReflTransGen l.Originates path other ∧ l.Inherits other other

variable {l : Lineage} {path other : Nid} {paths : List Nid} {e : Error}

theorem reaches_graph : l.graph.Reaches = Relation.ReflTransGen l.Originates := by
  rw [Digraph.Reaches, edge_graph]

/-- What is reached from a path leads to a cycle only if the path does. -/
theorem LeadsToCycle.of_reached (hr : Relation.ReflTransGen l.Originates path other)
    (h : l.LeadsToCycle other) : l.LeadsToCycle path := by
  obtain ⟨turn, hturn, hcycle⟩ := h
  exact ⟨turn, hr.trans hturn, hcycle⟩

/-- A refused check names a path on a cycle that one of the paths leads to. -/
theorem checkPaths_eq_error (h : l.checkPaths paths = .error e) :
    ∃ path ∈ paths, ∃ other, e = .invalidCoordinate (.originCycle other) ∧
      Relation.ReflTransGen l.Originates path other ∧ l.Inherits other other := by
  rw [checkPaths] at h
  cases hc : l.graph.checkAcyclic paths with
  | ok u => simp [hc] at h
  | error other =>
    simp only [hc, Except.error.injEq] at h
    obtain ⟨⟨path, hpath, hr⟩, hcycle⟩ := Digraph.above_self_of_checkAcyclic hc
    rw [reaches_graph] at hr
    rw [liesAbove_graph] at hcycle
    exact ⟨path, hpath, other, h.symm, hr, hcycle⟩

theorem not_leadsToCycle_of_checkPaths (h : l.checkPaths paths = .ok ()) (hpath : path ∈ paths) :
    ¬l.LeadsToCycle path := by
  rintro ⟨other, hr, hcycle⟩
  rw [checkPaths] at h
  cases hc : l.graph.checkAcyclic paths with
  | error other => simp [hc] at h
  | ok u =>
    rw [← reaches_graph] at hr
    rw [← liesAbove_graph] at hcycle
    exact Digraph.not_above_self_of_checkAcyclic hc hpath hr hcycle

/-- Paths pass the check just if none of them leads to a cycle. -/
theorem checkPaths_eq_ok_iff :
    l.checkPaths paths = .ok () ↔ ∀ path ∈ paths, ¬l.LeadsToCycle path := by
  refine ⟨fun h path => not_leadsToCycle_of_checkPaths h, fun h => ?_⟩
  cases hc : l.checkPaths paths with
  | ok u => rfl
  | error e =>
    obtain ⟨path, hpath, other, -, hr, hcycle⟩ := checkPaths_eq_error hc
    exact absurd ⟨other, hr, hcycle⟩ (h path hpath)

theorem checkFrom_eq_ok_iff : l.checkFrom path = .ok () ↔ ¬l.LeadsToCycle path := by
  rw [checkFrom, checkPaths_eq_ok_iff, List.forall_mem_singleton]

theorem checkFrom_eq_error (h : l.checkFrom path = .error e) :
    ∃ other, e = .invalidCoordinate (.originCycle other) ∧
      Relation.ReflTransGen l.Originates path other ∧ l.Inherits other other := by
  obtain ⟨path', hpath', found⟩ := checkPaths_eq_error h
  obtain rfl := List.mem_singleton.1 hpath'
  exact found

/-- The ancestors of a path are known just if it does not lead to a cycle. -/
theorem exists_ancestors_iff :
    (∃ s, l.ancestors path = .ok s) ↔ ¬l.LeadsToCycle path := by
  rw [← checkFrom_eq_ok_iff]
  constructor
  · rintro ⟨s, hs⟩
    exact (ancestors_eq_ok hs).1
  · intro h
    exact ⟨l.graph.above path, bind_eq_ok_iff.2 ⟨(), h, rfl⟩⟩

/-- A path that has an origin was declared. -/
theorem mem_keys_of_originates (h : l.Originates path other) : path ∈ l.origins.keys := by
  obtain ⟨o, ho, -⟩ := h
  rw [← Table.contains_iff_mem_keys, Table.contains]
  cases hget : l.origins.get? path with
  | none => simp [originsOf, hget] at ho
  | some origins => rfl

/-- A lineage passes the check just if no path inherits from itself. -/
theorem check_eq_ok_iff : l.check = .ok () ↔ ∀ path, ¬l.Inherits path path := by
  rw [check, checkPaths_eq_ok_iff]
  constructor
  · intro h path hcycle
    obtain ⟨origin, horigin, -⟩ := Relation.TransGen.head'_iff.1 hcycle
    have hdeclared : path ∈ (NidSet.ofList l.origins.keys).toList :=
      NidSet.mem_ofList.2 (mem_keys_of_originates horigin)
    exact h path hdeclared ⟨path, .refl, hcycle⟩
  · rintro h path - ⟨other, -, hcycle⟩
    exact h other hcycle

end Bitemporal.Lineage
