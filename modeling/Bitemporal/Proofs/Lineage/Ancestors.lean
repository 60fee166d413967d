import Bitemporal.Proofs.Lineage.Cycles
import Mathlib

/-!
# Ancestry as an order

The ancestors of a path are collected once it is known that the path leads to no cycle, and
then they are all the paths that it inherits from, but never the path itself
(`exists_ancestors`). Otherwise the question is refused in the words of the check
(`ancestors_eq_error`). Whether one path is an origin of another is the same question, for
one path only (`isOriginOf_eq_ok_iff`).

So where no path inherits from itself, every such question is answered, and what is answered
is a strict order: the least one in which each path comes after its declared origins
(`ancestors_exact`). It is for this that the rule of the more specific path never strikes
out the last candidate.
-/

namespace Bitemporal.Lineage

/-- A path is found to be an origin of another. -/
def IsOrigin (l : Lineage) (origin path : Nid) : Prop :=
  l.isOriginOf origin path = .ok true

variable {l : Lineage} {path origin : Nid} {e : Error} {answer : Bool}

/-! ## One question -/

/-- The ancestors of a path that leads to no cycle are those that it inherits from, and it is
    none of them. -/
theorem exists_ancestors (h : ¬l.LeadsToCycle path) : ∃ s, l.ancestors path = .ok s ∧
    (∀ origin, origin ∈ s ↔ l.Inherits path origin) ∧ path ∉ s := by
  obtain ⟨s, hs⟩ := exists_ancestors_iff.2 h
  refine ⟨s, hs, fun origin => mem_ancestors_iff hs, fun hmem => ?_⟩
  exact h ⟨path, .refl, (mem_ancestors_iff hs).1 hmem⟩

/-- A question for ancestors is refused as the check of the path is. -/
theorem ancestors_eq_error_iff : l.ancestors path = .error e ↔ l.checkFrom path = .error e := by
  rw [ancestors]
  cases l.checkFrom path with
  | error e' => rw [error_bind, Except.error.injEq, Except.error.injEq]
  | ok u => exact iff_of_false (fun h => nomatch h) fun h => nomatch h

theorem ancestors_eq_error (h : l.ancestors path = .error e) :
    ∃ other, e = .invalidCoordinate (.originCycle other) ∧
      Relation.ReflTransGen l.Originates path other ∧ l.Inherits other other :=
  checkFrom_eq_error (ancestors_eq_error_iff.1 h)

theorem exists_ancestors_eq_error_iff :
    (∃ e, l.ancestors path = .error e) ↔ l.LeadsToCycle path := by
  rw [← not_iff_not, ← exists_ancestors_iff]
  cases l.ancestors path <;> simp

/-- Whether a path is an origin of another is answered just if the other leads to no cycle, and
    then by what it inherits from. -/
theorem isOriginOf_eq_ok_iff : l.isOriginOf origin path = .ok answer ↔
    ¬l.LeadsToCycle path ∧ (answer = true ↔ l.Inherits path origin) := by
  rw [← exists_ancestors_iff]
  constructor
  · intro h
    obtain ⟨s, hs, h⟩ := bind_eq_ok_iff.1 h
    obtain rfl := pure_eq_ok_iff.1 h
    exact ⟨⟨s, hs⟩, decide_eq_true_iff.trans (mem_ancestors_iff hs)⟩
  · rintro ⟨⟨s, hs⟩, hanswer⟩
    refine bind_eq_ok_iff.2 ⟨s, hs, pure_eq_ok_iff.2 ?_⟩
    rw [Bool.eq_iff_iff, decide_eq_true_iff, mem_ancestors_iff hs, hanswer]

theorem isOrigin_iff : l.IsOrigin origin path ↔ ¬l.LeadsToCycle path ∧ l.Inherits path origin := by
  rw [IsOrigin, isOriginOf_eq_ok_iff]
  simp

/-! ## All questions -/

theorem not_leadsToCycle_of_acyclic (h : ∀ path, ¬l.Inherits path path) (path : Nid) :
    ¬l.LeadsToCycle path :=
  fun ⟨other, _, hcycle⟩ => h other hcycle

/-- Without cycles, the origins that are found are the transitive closure of the declared
    ones. -/
theorem isOrigin_eq_transGen (h : ∀ path, ¬l.Inherits path path) :
    l.IsOrigin = Relation.TransGen (Function.swap l.Originates) := by
  funext origin path
  have hnone : ¬l.LeadsToCycle path := not_leadsToCycle_of_acyclic h path
  rw [Relation.transGen_swap, ← Inherits]
  exact propext (isOrigin_iff.trans (and_iff_right hnone))

theorem isStrictOrder_isOrigin (h : ∀ path, ¬l.Inherits path path) :
    IsStrictOrder Nid l.IsOrigin where
  irrefl path hself := h path (isOrigin_iff.1 hself).2
  trans a b c hab hbc := by
    rw [isOrigin_eq_transGen h] at hab hbc ⊢
    exact hab.trans hbc

/-- The ancestors of a path are known just if it leads to no cycle. Then they are the paths
    that it inherits from, itself not among them; otherwise the refusal names a path on a
    cycle that it leads to.

    If no path inherits from itself, it is always known whether a path is an origin of
    another, and to be one is a strict order, the transitive closure of the declared
    origins. -/
theorem ancestors_exact (l : Lineage) :
    (∀ path, ¬l.LeadsToCycle path → ∃ s, l.ancestors path = .ok s ∧
      (∀ origin, origin ∈ s ↔ l.Inherits path origin) ∧ path ∉ s) ∧
    (∀ path, ((∃ e, l.ancestors path = .error e) ↔ l.LeadsToCycle path) ∧
      ∀ e, l.ancestors path = .error e → ∃ other, e = .invalidCoordinate (.originCycle other) ∧
        Relation.ReflTransGen l.Originates path other ∧ l.Inherits other other) ∧
    ((∀ path, ¬l.Inherits path path) →
      (∀ origin path, ∃ answer, l.isOriginOf origin path = .ok answer) ∧
      (∀ path, ¬l.IsOrigin path path) ∧
      (∀ origin path, l.IsOrigin origin path → ¬l.IsOrigin path origin) ∧
      (∀ origin path later, l.IsOrigin origin path → l.IsOrigin path later →
        l.IsOrigin origin later) ∧
      l.IsOrigin = Relation.TransGen (Function.swap l.Originates)) := by
  refine ⟨fun path => exists_ancestors, fun path =>
    ⟨exists_ancestors_eq_error_iff, fun e => ancestors_eq_error⟩, fun h => ?_⟩
  have horder : IsStrictOrder Nid l.IsOrigin := isStrictOrder_isOrigin h
  refine ⟨fun origin path => ?_, horder.irrefl, fun origin path => asymm_of l.IsOrigin,
    horder.trans, isOrigin_eq_transGen h⟩
  exact ⟨decide (l.Inherits path origin),
    isOriginOf_eq_ok_iff.2 ⟨not_leadsToCycle_of_acyclic h path, decide_eq_true_iff⟩⟩

/-- The path 4 originates from 2 and 3, and both of these from 1. The path 5 originates from a
    path that is not declared. -/
def forked : Lineage := ⟨⟨[(⟨1⟩, []), (⟨2⟩, [⟨⟨1⟩, ⟨10⟩⟩]), (⟨3⟩, [⟨⟨1⟩, ⟨20⟩⟩]),
  (⟨4⟩, [⟨⟨2⟩, ⟨30⟩⟩, ⟨⟨3⟩, ⟨30⟩⟩, ⟨⟨2⟩, ⟨40⟩⟩]), (⟨5⟩, [⟨⟨9⟩, ⟨10⟩⟩])]⟩⟩

/-- The same paths, and a path 6 that originates from 4 and from itself. -/
def forkedAndKnotted : Lineage :=
  ⟨forked.origins.insert ⟨6⟩ [⟨⟨4⟩, ⟨50⟩⟩, ⟨⟨6⟩, ⟨50⟩⟩]⟩

theorem ancestors_exact_when_forked :
    (∀ path, ¬forked.Inherits path path) ∧ forked.IsOrigin ⟨1⟩ ⟨2⟩ ∧ forked.IsOrigin ⟨2⟩ ⟨4⟩ ∧
      forked.IsOrigin ⟨1⟩ ⟨4⟩ ∧ ¬forked.IsOrigin ⟨4⟩ ⟨1⟩ ∧
      (∃ answer, forked.isOriginOf ⟨9⟩ ⟨5⟩ = .ok answer) ∧
      ¬forkedAndKnotted.LeadsToCycle ⟨4⟩ ∧
      (∃ s, forkedAndKnotted.ancestors ⟨4⟩ = .ok s ∧ ⟨1⟩ ∈ s ∧ ⟨4⟩ ∉ s) ∧
      forkedAndKnotted.LeadsToCycle ⟨6⟩ := by
  have hacyclic : ∀ path, ¬forked.Inherits path path := check_eq_ok_iff.1 (by cbv)
  have hone : forked.IsOrigin ⟨1⟩ ⟨2⟩ := by
    unfold IsOrigin
    cbv
  have htwo : forked.IsOrigin ⟨2⟩ ⟨4⟩ := by
    unfold IsOrigin
    cbv
  obtain ⟨-, -, horder⟩ := ancestors_exact forked
  obtain ⟨hanswered, -, hasymm, htrans, -⟩ := horder hacyclic
  obtain ⟨hknown, hrefused, -⟩ := ancestors_exact forkedAndKnotted
  have hnone : ¬forkedAndKnotted.LeadsToCycle ⟨4⟩ := checkFrom_eq_ok_iff.1 (by cbv)
  have hinherits : forkedAndKnotted.isOriginOf ⟨1⟩ ⟨4⟩ = .ok true := by cbv
  have hfour := htrans _ _ _ hone htwo
  obtain ⟨s, hs, hmem, hself⟩ := hknown ⟨4⟩ hnone
  refine ⟨hacyclic, hone, htwo, hfour, hasymm _ _ hfour, hanswered _ _, hnone,
    ⟨s, hs, (hmem ⟨1⟩).2 ((isOriginOf_eq_ok_iff.1 hinherits).2.1 rfl), hself⟩,
    (hrefused ⟨6⟩).1.1 ⟨.invalidCoordinate (.originCycle ⟨6⟩), by cbv⟩⟩

end Bitemporal.Lineage
