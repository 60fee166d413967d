import Bitemporal.Proofs.Field.Access
import Bitemporal.Proofs.Store.Contents
import Bitemporal.Proofs.Store.Indexing
import Bitemporal.Proofs.Store.Past
import Bitemporal.Taxonomy

/-!
# Edges

What lies below a component in a taxonomy can be said without indices, as what a scan of
all histories finds: an *edge* leads from one component to another if some semantic of the
assemblage is about the first, and one of its versions that count holds the second at the
position of the child (`Taxonomy.Edge`). The component at the far end must be seen besides
(`Taxonomy.Seen`).

The question for the children is answered by an index, and refused if a history is missing
that the index lists. In a store that can be reached none is, and the answer is that of
the scan (`Taxonomy.children_eq_scan`). The child can be read in every version of an edge,
since all of them carry fields that fit the schema of the assemblage
(`Taxonomy.exists_child`).
-/

namespace Bitemporal

/-- A version holds a component number at a position of its fields. -/
def Version.Holds (version : Version) (position : Nat) (n : Nid) : Prop :=
  ∃ tuple, version.payload = .fields tuple ∧ tuple.nidAt? position = some n

namespace Taxonomy

variable {t : Taxonomy} {s : Store} {h : History} {n parent child : Nid} {version : Version}

/-- A version counts for an edge: it is current, and it is not excluded because others
    contradict it. -/
def Counts (t : Taxonomy) (h : History) (version : Version) : Prop :=
  version ∈ (t.viewpoint.current h).versions ∧
    (t.policy = .exclude → (t.viewpoint.current h).isContradiction = false)

/-- An edge leads from one component to another. -/
def Edge (t : Taxonomy) (s : Store) (parent child : Nid) : Prop :=
  ∃ n h, s.history n = .ok h ∧ h.shape = .semantic t.assemblage parent ∧
    ∃ version, t.Counts h version ∧ version.Holds t.childField child

/-- A component is there and has a current version. -/
def Seen (t : Taxonomy) (s : Store) (n : Nid) : Prop :=
  ∃ h, s.history n = .ok h ∧ t.viewpoint.current h ≠ .empty

/-! ## Single edges and concepts -/

theorem mem_kept_iff {policy : ContradictionPolicy} {seen : Latest} :
    version ∈ kept policy seen ↔
      version ∈ seen.versions ∧ (policy = .exclude → seen.isContradiction = false) := by
  cases policy with
  | includeAll => simp [kept]
  | exclude => cases seen <;> simp [kept, Latest.versions, Latest.isContradiction]

theorem childIn?_eq_some_iff :
    t.childIn? version = some child ↔ version.Holds t.childField child := by
  rw [childIn?, Option.bind_eq_some_iff, Version.Holds]
  refine exists_congr fun tuple => and_congr_left' ?_
  cases version.payload <;> simp [Payload.tuple?]

theorem mem_ends_iff :
    child ∈ t.ends h ↔ ∃ version, t.Counts h version ∧ version.Holds t.childField child := by
  simp only [ends, List.mem_filterMap, mem_kept_iff, childIn?_eq_some_iff, Counts]

theorem sees_iff : t.sees s n = true ↔ t.Seen s n := by
  rw [sees, Seen]
  simp only [Store.history_eq_ok_iff]
  cases s.histories.get? n with
  | none => simp
  | some h => cases hc : t.viewpoint.current h <;> simp [hc, Latest.isEmpty]

/-! ## Children -/

/-- In an indexed store the question is answered for a component that is there. -/
theorem exists_children (hs : s.Indexed) (hparent : s.history parent = .ok h) :
    ∃ below, t.children s parent = .ok below ∧
      ∀ child, child ∈ below ↔ t.Edge s parent child ∧ t.Seen s child := by
  have hlisted (n : Nid) : n ∈ (s.semanticsAbout t.assemblage parent).toList ↔
      ∃ h, s.history n = .ok h ∧ h.shape = .semantic t.assemblage parent := by
    refine (hs.mem_under (.referenced t.assemblage parent) n).trans ?_
    simp [History.FiledUnder, Shape.FiledUnder, Version.FiledUnder]
  -- every semantic that is listed has a history
  obtain ⟨edges, hedges, hmem⟩ := exists_mapM_eq_ok (f := s.history)
    (l := (s.semanticsAbout t.assemblage parent).toList) fun n hn =>
      ((hlisted n).1 hn).imp fun _ hh => hh.1
  have hedge (child : Nid) : (∃ h ∈ edges, child ∈ t.ends h) ↔ t.Edge s parent child := by
    constructor
    · rintro ⟨h, hh, hends⟩
      obtain ⟨n, hn, hget⟩ := (hmem h).1 hh
      obtain ⟨h', hget', hshape⟩ := (hlisted n).1 hn
      obtain rfl : h = h' := Except.ok.inj (hget.symm.trans hget')
      exact ⟨n, h, hget, hshape, mem_ends_iff.1 hends⟩
    · rintro ⟨n, h, hget, hshape, hholds⟩
      exact ⟨h, (hmem h).2 ⟨n, (hlisted n).2 ⟨h, hget, hshape⟩, hget⟩, mem_ends_iff.2 hholds⟩
  refine ⟨.ofList ((edges.flatMap t.ends).filter (t.sees s)), ?_, fun child => ?_⟩
  · rw [children, hparent]
    show ((s.semanticsAbout t.assemblage parent).toList.mapM s.history >>= _) = _
    rw [hedges]
    rfl
  · rw [NidSet.mem_ofList, List.mem_filter, List.mem_flatMap, sees_iff, hedge]

/-- In every version of an edge the child can be read, alone as well as with the other
    fields, since the versions carry fields of the schema that is declared. -/
theorem exists_child {schema : Schema} (hs : s.Reachable)
    (hschema : s.schema t.assemblage = .ok schema) (hfield : schema.type? t.childField = some .nid)
    (hh : s.history n = .ok h) (hshape : h.shape = .semantic t.assemblage parent)
    (hv : version ∈ h.committed) :
    ∃ tuple values child, version.payload = .fields tuple ∧ tuple.values = .ok values ∧
      values[t.childField]? = some (.nid child) ∧
      (tuple.octets.size < UInt32.size → ∀ n, version.Holds t.childField n ↔ n = child) := by
  have hk := (Store.contents_of_reachable hs).wellKept (Store.history_eq_ok hh)
  have hdeclares := (hk.committed version hv).2
  rw [hshape] at hdeclares
  obtain ⟨declared, tuple, hdeclared, hpayload, hfits⟩ := hdeclares
  obtain rfl : declared = schema :=
    Option.some.inj (hdeclared.symm.trans (Store.schema_eq_ok_iff.1 hschema))
  obtain ⟨values, hvalues⟩ := hfits.exists_values
  -- the value at the position of the child has the type that is declared there
  have htype : (values[t.childField]?).map FieldValue.type = some .nid := by
    rw [← hfield, Schema.type?, ← Array.getElem?_toList, ← hfits.pieces.1,
      ← FieldTuple.types_of_values hvalues, List.getElem?_map]
  obtain ⟨value, hvalue, hnid⟩ := Option.map_eq_some_iff.1 htype
  cases value with
  | nid child =>
    refine ⟨tuple, values, child, hpayload, hvalues, hvalue, fun hsize n => ?_⟩
    have hread : tuple.nidAt? t.childField = some n ↔
        values[t.childField]? = some (.nid n) :=
      FieldTuple.nidAt?_eq_some_iff hfits hsize hvalues
    simp only [Version.Holds, hpayload, Payload.fields.injEq, exists_eq_left', hread, hvalue,
      Option.some.injEq, FieldValue.nid.injEq]
    exact eq_comm
  | _ => cases hnid

/-- In a store that can be reached, the children of a component are what a scan of all
    histories finds below it, and they are refused for what is no component only. -/
theorem children_eq_scan (hs : s.Reachable) (t : Taxonomy) (parent : Nid) :
    (s.contains parent = false → t.children s parent = .error (.unknownIdentifier parent)) ∧
    (s.contains parent = true → ∃ below, t.children s parent = .ok below ∧
      ∀ child, child ∈ below ↔ t.Edge s parent child ∧ t.Seen s child) ∧
    ∀ {schema n h version}, s.schema t.assemblage = .ok schema →
      schema.type? t.childField = some .nid → s.history n = .ok h →
      h.shape = .semantic t.assemblage parent → version ∈ h.committed →
      ∃ tuple values child, version.payload = .fields tuple ∧ tuple.values = .ok values ∧
        values[t.childField]? = some (.nid child) ∧
        (tuple.octets.size < UInt32.size → ∀ n, version.Holds t.childField n ↔ n = child) := by
  refine ⟨fun hnone => ?_, fun hsome => ?_, exists_child hs⟩
  · rw [children, Store.history, Store.contains_eq_false_iff.1 hnone]
    rfl
  · obtain ⟨h, hget⟩ := Option.isSome_iff_exists.1 hsome
    exact exists_children (Store.indexed_of_reachable hs) (Store.history_eq_ok_iff.2 hget)

/-- Two edges from the concept 1: one to the concept 2, which is seen, and one to a
    component that is not there. -/
def branching : List Store.Operation :=
  [.create [.uniform 1] .concept, .defineAssemblage ⟨1⟩ ⟨#[.nid]⟩,
    .create [.uniform 2] .concept, .append ⟨2⟩ (Store.foundingStamp ⟨10⟩) [],
    .create [.uniform 3] (.semantic ⟨1⟩ ⟨1⟩), .append ⟨3⟩ (Store.foundingStamp ⟨10⟩) [.nid ⟨2⟩],
    .create [.uniform 4] (.semantic ⟨1⟩ ⟨1⟩), .append ⟨4⟩ (Store.foundingStamp ⟨10⟩) [.nid ⟨9⟩]]

/-- The taxonomy of the assemblage 1. -/
def ofFirst (v : Viewpoint) : Taxonomy :=
  { assemblage := ⟨1⟩, childField := 0, viewpoint := v }

theorem children_eq_scan_of_branching :
    ∃ v, Viewpoint.make Store.betweenCommits .empty .standard = .ok v ∧
      (ofFirst v).children (Store.empty.run branching) ⟨1⟩ = .ok (.ofList [⟨2⟩]) ∧
      (ofFirst v).Edge (Store.empty.run branching) ⟨1⟩ ⟨2⟩ ∧
      (ofFirst v).Seen (Store.empty.run branching) ⟨2⟩ ∧
      (ofFirst v).children (Store.empty.run branching) ⟨9⟩ =
        .error (.unknownIdentifier ⟨9⟩) := by
  have hs : (Store.empty.run branching).Reachable := ⟨branching, rfl⟩
  obtain ⟨v, hv, hbelow⟩ : ∃ v, Viewpoint.make Store.betweenCommits .empty .standard = .ok v ∧
      (ofFirst v).children (Store.empty.run branching) ⟨1⟩ = .ok (.ofList [⟨2⟩]) :=
    ⟨_, by cbv, by cbv⟩
  obtain ⟨-, hchildren, -⟩ := children_eq_scan hs (ofFirst v) ⟨1⟩
  obtain ⟨hrefused, -, -⟩ := children_eq_scan hs (ofFirst v) ⟨9⟩
  obtain ⟨below, hbelow', hmem⟩ := hchildren (by cbv)
  obtain rfl : NidSet.ofList [⟨2⟩] = below := Except.ok.inj (hbelow.symm.trans hbelow')
  obtain ⟨hedge, hseen⟩ := (hmem ⟨2⟩).1 (by decide)
  exact ⟨v, hv, hbelow, hedge, hseen, hrefused (by cbv)⟩

end Taxonomy

end Bitemporal
