import Bitemporal.Proofs.Store.Outcomes
import Bitemporal.Proofs.Viewpoint.Branching

/-!
# Paths of a store

The declared paths of a store are changed by requests to them only: an operation leaves them
as they are, or as one such request does (`Operation.lineage_after`). So in every store that
can be reached no path has two entries (`declaredOnce_of_reachable`).

This is what the theorems on viewpoints ask of a lineage. For the viewpoints on a store that
can be reached it need not be asked: they are refused on cycles alone
(`exists_viewpoint_iff`, `viewpoint_refused`, `ancestors_known`), have the widest windows
(`viewpoint_windows`), and see on a branch what they see on its origin
(`viewpoint_on_branch`).
-/

namespace Bitemporal.Store

variable {s t : Store} {filter : Filter} {order : TieBreakOrder} {v : Viewpoint} {e : Error}

/-- The paths of a store are left as they are, or as a request to them leaves them. -/
def AsksLineage (s t : Store) : Prop :=
  t.lineage = s.lineage ∨ ∃ request, t.lineage = s.lineage.after request

theorem asksLineage_declarePath (s : Store) (path : Nid) (origins : List Origin) :
    s.AsksLineage ((declarePath path origins).perform s).2 := by
  rw [declarePath]
  cases hc : checkConcepts s.identities (path :: origins.map Origin.path) with
  | error e => exact .inl (by simp [hc])
  | ok u =>
    refine .inr ⟨.declare path origins, ?_⟩
    cases hd : s.lineage.declare path origins <;> simp [hc, hd, Lineage.after]

theorem Created.lineage {uuids : List Uuid} {shape : Shape} {answer : Except Error Nid}
    (h : s.Created uuids shape answer t) : t.lineage = s.lineage := by
  cases h <;> rfl

theorem Appended.lineage {nid : Nid} {stamp : Stamp} {values : List FieldValue}
    {answer : Except Error Handle} (h : s.Appended nid stamp values answer t) :
    t.lineage = s.lineage := by
  cases h <;> rfl

theorem Updated.lineage {handle : Handle} {values : List FieldValue} {answer : Except Error Unit}
    (h : s.Updated handle values answer t) : t.lineage = s.lineage := by
  cases h <;> rfl

theorem Committed.lineage {handle : Handle} {time : Timestamp} {answer : Except Error StampSeq}
    (h : s.Committed handle time answer t) : t.lineage = s.lineage := by
  cases h <;> rfl

theorem Imported.lineage {octets : List UInt8} {answer : Except Error Nid}
    (h : s.Imported octets answer t) : t.lineage = s.lineage := by
  cases h <;> rfl

theorem asksLineage_createPath (s : Store) (fresh : Uuid) (origins : List Origin) :
    s.AsksLineage ((createPath fresh origins).perform s).2 := by
  have hc := (created s [fresh] .concept).lineage
  rcases after_createPath s fresh origins with h | ⟨path, h⟩
  · rw [h]
    exact .inl hc
  · rw [h]
    have hd := asksLineage_declarePath ((create [fresh] .concept).perform s).2 path origins
    rwa [AsksLineage, hc] at hd

/-- Whatever operation is taken up, it changes the paths by a request to them, if at all. -/
theorem Operation.lineage_after (op : Operation) (s : Store) : s.AsksLineage (op.after s) := by
  rw [after, perform]
  cases op with
  | create uuids shape => simpa [action] using .inl (created s uuids shape).lineage
  | createPath fresh origins => simpa [action] using asksLineage_createPath s fresh origins
  | defineAssemblage assemblage schema =>
    rcases after_defineAssemblage s assemblage schema with h | ⟨-, h⟩ <;>
      exact .inl (by simp [action, h])
  | declarePath path origins => simpa [action] using asksLineage_declarePath s path origins
  | append nid stamp values => simpa [action] using .inl (appended s nid stamp values).lineage
  | updateDraft handle values => simpa [action] using .inl (updated s handle values).lineage
  | commit handle time => simpa [action] using .inl (committed s handle time).lineage
  | importStamps octets =>
    rcases after_importStamps s octets with h | ⟨rows, h⟩ <;> exact .inl (by simp [action, h])
  | importHistory octets => simpa [action] using .inl (imported s octets).lineage
  | rebuildIndex => exact .inl rfl
  | reset => exact .inr ⟨.reset, rfl⟩
  | toIdentities request => exact .inl rfl
  | toStamps request => exact .inl rfl
  | toLineage request => exact .inr ⟨request, rfl⟩

/-- In a store that can be reached no path has two entries. -/
theorem declaredOnce_of_reachable (hs : s.Reachable) : s.lineage.DeclaredOnce := by
  refine Reachable.induction (P := fun t => t.lineage.DeclaredOnce) hs
    Lineage.declaredOnce_empty fun op t ht => ?_
  rcases op.lineage_after t with h | ⟨request, h⟩
  · rwa [h]
  · rw [h]
    exact Lineage.declaredOnce_after ht request

/-! ## Viewpoints on a store -/

/-- A viewpoint on a store is made just if none of its positions leads to a cycle of origins, -/
theorem exists_viewpoint_iff (hs : s.Reachable) :
    (∃ v, Viewpoint.make filter s.lineage order = .ok v) ↔
      ∀ p ∈ filter.positions, ¬s.lineage.LeadsToCycle p.path :=
  Viewpoint.exists_make_iff (declaredOnce_of_reachable hs)

/-- is refused by the check of a position only, -/
theorem viewpoint_refused (hs : s.Reachable)
    (h : Viewpoint.make filter s.lineage order = .error e) :
    ∃ p ∈ filter.positions, s.lineage.checkFrom p.path = .error e :=
  Viewpoint.make_eq_error (declaredOnce_of_reachable hs) h

/-- and knows the ancestors of every path that it sees. -/
theorem ancestors_known (hs : s.Reachable) (h : Viewpoint.make filter s.lineage order = .ok v)
    {path : Nid} {seen : Timestamp} (hw : v.window? path = some seen) :
    ∃ ancestors, s.lineage.ancestors path = .ok ancestors := by
  have hpositions := (exists_viewpoint_iff hs).1 ⟨v, h⟩
  rw [Viewpoint.window?, (Viewpoint.make_eq_ok h).2.2.1] at hw
  exact Viewpoint.exists_ancestors_of_checked (declaredOnce_of_reachable hs)
    (fun p hp => Lineage.checkFrom_eq_ok_iff.2 (hpositions p hp)) hw

/-- Its window on a path is the widest one that a route opens. -/
theorem viewpoint_windows (hs : s.Reachable) (h : Viewpoint.make filter s.lineage order = .ok v)
    {path : Nid} {time : Timestamp} : v.window? path = some time ↔
      IsGreatest {t | s.lineage.Opens filter.positions path t} time :=
  (Viewpoint.widest_of_make (declaredOnce_of_reachable hs) h).get?_eq_some_iff

/-- On a branch without versions it sees of a component what it sees on the origin of the branch,
    up to the time at which the branch left. -/
theorem viewpoint_on_branch (hs : s.Reachable) {branch : Nid} {o : Origin} {h : History}
    (horigins : s.lineage.originsOf branch = [o]) (hcycle : ¬s.lineage.LeadsToCycle branch)
    (hbranch : ∀ a ∈ h.committed, a.stamp.path ≠ branch) (time : Timestamp) :
    ∃ v w, Viewpoint.make (filter.standingOn branch time) s.lineage order = .ok v ∧
      Viewpoint.make (filter.standingOn o.path (min time o.time)) s.lineage order = .ok w ∧
      v.visible h = w.visible h ∧ v.latest h = w.latest h ∧ v.current h = w.current h := by
  have hl := declaredOnce_of_reachable hs
  have horigin := Lineage.not_leadsToCycle_origin horigins hcycle
  obtain ⟨v, hv⟩ := Viewpoint.exists_standingOn hl hcycle filter order time
  obtain ⟨w, hw⟩ := Viewpoint.exists_standingOn hl horigin filter order (min time o.time)
  refine ⟨v, w, hv, hw, Viewpoint.answers_congr hv hw rfl rfl fun a ha => ?_⟩
  exact Viewpoint.window?_off_branch hl horigins hv hw (hbranch a ha)

end Bitemporal.Store
