import Bitemporal.Proofs.Viewpoint.Windows

/-!
# Refused viewpoints

A viewpoint is refused just if one of its positions leads to a cycle of origins, and then in
the words of the check of such a position (`exists_make_iff`, `make_eq_error`). Nothing is
refused after these checks: the windows are opened over routes from the positions, so the
paths that are seen lead to no cycle either, and their ancestors are known
(`exists_ancestors_of_checked`). A cycle elsewhere in the lineage is not met.
-/

namespace Bitemporal.Viewpoint

variable {filter : Filter} {l : Lineage} {order : TieBreakOrder} {v : Viewpoint} {path : Nid}
  {e : Error}

/-- The ancestors of all paths are found if those of each one are. -/
theorem exists_ancestorsOf {paths : List Nid} (h : ∀ path ∈ paths, ∃ s, l.ancestors path = .ok s) :
    ∃ t, ancestorsOf l paths = .ok t := by
  rw [ancestorsOf]
  generalize (.empty : Table Nid NidSet) = t
  induction paths generalizing t with
  | nil => exact ⟨t, rfl⟩
  | cons path rest ih =>
    rw [List.forall_mem_cons] at h
    obtain ⟨⟨s, hs⟩, hrest⟩ := h
    obtain ⟨t', ht'⟩ := ih hrest (t.insert path s)
    exact ⟨t', by rw [List.foldlM_cons, hs]; exact ht'⟩

/-- A path that is seen from positions that lead to no cycle leads to none. -/
theorem not_leadsToCycle_of_window (hl : l.DeclaredOnce) {positions : List Position}
    (hpositions : ∀ p ∈ positions, ¬l.LeadsToCycle p.path) {seen : Timestamp}
    (hw : (l.windows positions).get? path = some seen) : ¬l.LeadsToCycle path := by
  obtain ⟨p, hp, hr⟩ := ((Lineage.widest_windows hl hpositions).opens hw).reached
  exact fun h => hpositions p hp (h.of_reached hr)

/-- Once the positions have passed the check, the ancestors of all that is seen are known. -/
theorem exists_ancestors_of_checked (hl : l.DeclaredOnce) {positions : List Position}
    (hpositions : ∀ p ∈ positions, l.checkFrom p.path = .ok ()) {seen : Timestamp}
    (hw : (l.windows positions).get? path = some seen) : ∃ s, l.ancestors path = .ok s :=
  Lineage.exists_ancestors_iff.2 <| not_leadsToCycle_of_window hl
    (fun p hp => Lineage.checkFrom_eq_ok_iff.1 (hpositions p hp)) hw

theorem exists_make_of_checked (hl : l.DeclaredOnce)
    (hpositions : ∀ p ∈ filter.positions, l.checkFrom p.path = .ok ()) :
    ∃ v, make filter l order = .ok v := by
  have hchecked : (filter.positions.forM fun p => l.checkFrom p.path) = .ok () :=
    forM_eq_ok_iff.2 hpositions
  obtain ⟨t, ht⟩ : ∃ t, ancestorsOf l (l.windows filter.positions).keys = .ok t := by
    refine exists_ancestorsOf fun path hpath => ?_
    obtain ⟨seen, hw⟩ := Option.isSome_iff_exists.1 (Table.contains_iff_mem_keys.2 hpath)
    exact exists_ancestors_of_checked hl hpositions hw
  refine ⟨_, bind_eq_ok_iff.2 ⟨(), hchecked, bind_eq_ok_iff.2 ⟨t, ht, rfl⟩⟩⟩

/-- A viewpoint is refused as the check of one of its positions is. -/
theorem make_eq_error (hl : l.DeclaredOnce) (h : make filter l order = .error e) :
    ∃ p ∈ filter.positions, l.checkFrom p.path = .error e := by
  cases hc : filter.positions.forM fun p => l.checkFrom p.path with
  | error e' =>
    rw [make, hc] at h
    obtain rfl := Except.error.inj h
    exact exists_of_forM_eq_error hc
  | ok u =>
    obtain ⟨v, hv⟩ : ∃ v, make filter l order = .ok v :=
      exists_make_of_checked hl (forM_eq_ok_iff.1 hc)
    rw [hv] at h
    cases h

/-- A viewpoint is made just if none of its positions leads to a cycle. -/
theorem exists_make_iff (hl : l.DeclaredOnce) :
    (∃ v, make filter l order = .ok v) ↔ ∀ p ∈ filter.positions, ¬l.LeadsToCycle p.path := by
  simp only [← Lineage.checkFrom_eq_ok_iff]
  constructor
  · rintro ⟨v, hv⟩
    obtain ⟨u, hu, -⟩ := bind_eq_ok_iff.1 hv
    exact forM_eq_ok_iff.1 hu
  · exact exists_make_of_checked hl

/-- Cycles of origins are found exactly. A path is refused just if it leads to a cycle, the
    whole lineage just if there is one, and a viewpoint just if one of its positions leads to
    one; the refusal names a path on such a cycle. A viewpoint is refused by the check of a
    position only: once these have passed, the ancestors of every path that is seen are
    known. -/
theorem refused_exactly_on_cycles (l : Lineage) :
    (∀ path, (l.checkFrom path = .ok () ↔ ¬l.LeadsToCycle path) ∧
      ∀ e, l.checkFrom path = .error e → ∃ other, e = .invalidCoordinate (.originCycle other) ∧
        Relation.ReflTransGen l.Originates path other ∧ l.Inherits other other) ∧
    ((l.check = .ok () ↔ ∀ path, ¬l.Inherits path path) ∧
      ∀ e, l.check = .error e → ∃ other, e = .invalidCoordinate (.originCycle other) ∧
        l.Inherits other other) ∧
    (l.DeclaredOnce → ∀ (filter : Filter) (order : TieBreakOrder),
      ((∃ v, make filter l order = .ok v) ↔ ∀ p ∈ filter.positions, ¬l.LeadsToCycle p.path) ∧
      (∀ e, make filter l order = .error e →
        ∃ p ∈ filter.positions, l.checkFrom p.path = .error e) ∧
      ((∀ p ∈ filter.positions, l.checkFrom p.path = .ok ()) → ∀ path seen,
        (l.windows filter.positions).get? path = some seen → ∃ s, l.ancestors path = .ok s)) := by
  refine ⟨fun path => ⟨Lineage.checkFrom_eq_ok_iff, fun e => Lineage.checkFrom_eq_error⟩,
    ⟨Lineage.check_eq_ok_iff, fun e he => ?_⟩, fun hl filter order =>
    ⟨exists_make_iff hl, fun e => make_eq_error hl, fun hpositions path seen =>
      exists_ancestors_of_checked hl hpositions⟩⟩
  obtain ⟨-, -, other, rfl, -, hcycle⟩ := Lineage.checkPaths_eq_error he
  exact ⟨other, rfl, hcycle⟩

/-- The path 1 leads to the cycle of the paths 2 and 3, and twice so. The path 4 originates
    from a path that is not declared, and leads to no cycle. -/
def knotted : Lineage := ⟨⟨[(⟨1⟩, [⟨⟨2⟩, ⟨10⟩⟩, ⟨⟨2⟩, ⟨20⟩⟩]), (⟨2⟩, [⟨⟨3⟩, ⟨10⟩⟩]),
  (⟨3⟩, [⟨⟨4⟩, ⟨10⟩⟩, ⟨⟨2⟩, ⟨10⟩⟩]), (⟨4⟩, [⟨⟨9⟩, ⟨10⟩⟩])]⟩⟩

theorem refused_exactly_on_cycles_when_knotted :
    knotted.DeclaredOnce ∧
      knotted.checkFrom ⟨1⟩ = .error (.invalidCoordinate (.originCycle ⟨2⟩)) ∧
      knotted.Inherits ⟨2⟩ ⟨2⟩ ∧ knotted.LeadsToCycle ⟨1⟩ ∧
      make (.latestOn ⟨1⟩) knotted .standard =
        .error (.invalidCoordinate (.originCycle ⟨2⟩)) ∧
      ¬knotted.LeadsToCycle ⟨4⟩ ∧ knotted.check ≠ .ok () ∧
      (∃ v, make (.latestOn ⟨4⟩) knotted .standard = .ok v) ∧
      ∃ s, knotted.ancestors ⟨9⟩ = .ok s := by
  obtain ⟨hpaths, ⟨hwhole, -⟩, hviewpoints⟩ := refused_exactly_on_cycles knotted
  have hl : knotted.DeclaredOnce := (by decide : knotted.origins.keys.Nodup)
  have hone : knotted.checkFrom ⟨1⟩ = .error (.invalidCoordinate (.originCycle ⟨2⟩)) := by cbv
  have hfour : knotted.checkFrom ⟨4⟩ = .ok () := by cbv
  obtain ⟨other, hother, hr, hcycle⟩ := (hpaths ⟨1⟩).2 _ hone
  obtain rfl : (⟨2⟩ : Nid) = other := by simpa using hother
  have hnone := (hpaths ⟨4⟩).1.1 hfour
  have hpositions : ∀ p ∈ (Filter.latestOn ⟨4⟩).positions, knotted.checkFrom p.path = .ok () := by
    simpa [Filter.latestOn] using hfour
  obtain ⟨hmade, -, hknown⟩ := hviewpoints hl (.latestOn ⟨4⟩) .standard
  refine ⟨hl, hone, hcycle, ⟨_, hr, hcycle⟩, by cbv, hnone, fun h => hwhole.1 h _ hcycle,
    hmade.2 fun p hp => ((hpaths p.path).1).1 (hpositions p hp),
    hknown hpositions ⟨9⟩ ⟨10⟩ (by cbv)⟩

end Bitemporal.Viewpoint
