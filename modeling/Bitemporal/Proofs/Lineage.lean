import Bitemporal.Lineage
import Bitemporal.Proofs.Digraph
import Bitemporal.Proofs.Refusal
import Bitemporal.Proofs.Table

/-!
# Inheritance between paths

A path *inherits* from another one if a chain of one or more declared origins
leads from it there. This is stated on the declared origins alone, without the
graph that the walks are made on.

* `mem_ancestors_iff`: the ancestors of a path are the paths it inherits from;
* `not_inherits_self`: a path whose ancestors are known does not inherit from
  itself, as a cycle of origins would have been found before.
-/

namespace Bitemporal.Lineage

/-- `origin` is declared as an origin of `path`. -/
def Originates (l : Lineage) (path origin : Nid) : Prop :=
  ∃ o ∈ l.originsOf path, o.path = origin

/-- A chain of declared origins leads from `path` to `origin`. -/
def Inherits (l : Lineage) : Nid → Nid → Prop := Relation.TransGen l.Originates

variable {l : Lineage}

theorem next_graph (l : Lineage) (path : Nid) :
    l.graph.next path = (l.originsOf path).map Origin.path := by
  show (Table.find? path (l.origins.entries.map fun e => (e.1, e.2.map Origin.path))).getD [] = _
  rw [Table.find?_map, originsOf, Table.get?]
  cases Table.find? path l.origins.entries <;> rfl

theorem edge_graph : l.graph.Edge = l.Originates := by
  funext path origin
  simp [Digraph.Edge, next_graph, Originates]

theorem liesAbove_graph : l.graph.LiesAbove = l.Inherits := by
  rw [Digraph.LiesAbove, edge_graph, Inherits]

instance (path origin : Nid) : Decidable (l.Inherits path origin) :=
  decidable_of_iff (l.graph.LiesAbove path origin) (by rw [liesAbove_graph])

theorem checkAcyclic_of_checkFrom {path : Nid} (h : l.checkFrom path = .ok ()) :
    l.graph.checkAcyclic [path] = .ok () := by
  rw [checkFrom, checkPaths] at h
  cases hc : l.graph.checkAcyclic [path] with
  | error e => simp [hc] at h
  | ok u => rfl

/-- No path on a chain of origins from a checked path inherits from itself. -/
theorem not_inherits_self {path other : Nid} (h : l.checkFrom path = .ok ())
    (hr : Relation.ReflTransGen l.Originates path other) : ¬l.Inherits other other := by
  rw [← liesAbove_graph]
  rw [← edge_graph] at hr
  exact Digraph.not_above_self_of_checkAcyclic (checkAcyclic_of_checkFrom h) (by simp) hr

theorem ancestors_eq_ok {path : Nid} {s : NidSet} (h : l.ancestors path = .ok s) :
    l.checkFrom path = .ok () ∧ s = l.graph.above path := by
  obtain ⟨⟨⟩, hc, h⟩ := bind_eq_ok_iff.1 h
  exact ⟨hc, (pure_eq_ok_iff.1 h).symm⟩

/-- The ancestors of a path are the paths it inherits from. -/
theorem mem_ancestors_iff {path origin : Nid} {s : NidSet} (h : l.ancestors path = .ok s) :
    origin ∈ s ↔ l.Inherits path origin := by
  rw [(ancestors_eq_ok h).2, Digraph.mem_above_iff, liesAbove_graph]

end Bitemporal.Lineage
