import Bitemporal.Proofs.Store.Change
import Bitemporal.Proofs.Table
import Mathlib

/-!
# What the indices hold

Indices are filled bit by bit: when a component is created, when a version is
committed, be it at once or as a draft, and when a record is imported. They could
also be made from the histories at any time. It comes to the same.

What a component is filed under is said by its history alone
(`History.FiledUnder`): by its shape, and by the component numbers that the fields of
its committed versions hold. A store is *indexed* if exactly the components with such
histories are listed under each heading (`Store.Indexed`).

* `Indexed.change`: each of the things that operations do keeps a store indexed;
* `indexed_of_reachable`: so every store that can be reached is indexed;
* `rebuildIndex_answers`: what the indices answer there is read off the histories, and
  making the indices anew changes no answer.
-/

namespace Bitemporal

/-! ## Headings -/

/-- What semantics are listed under. -/
inductive Index.Heading where
  | assemblage (assemblage : Nid)
  /-- An assemblage, and what a semantic of it is about. -/
  | referenced (assemblage referenced : Nid)
  /-- A component number that a field holds. -/
  | value (value : Nid)

/-- The semantics listed under a heading. -/
def Index.under (i : Index) : Index.Heading → NidSet
  | .assemblage assemblage => i.ofAssemblage assemblage
  | .referenced assemblage referenced => i.referencing assemblage referenced
  | .value value => i.holding value

/-- What the components of a shape are filed under. -/
def Shape.FiledUnder (shape : Shape) : Index.Heading → Prop
  | .assemblage assemblage => ∃ referenced, shape = .semantic assemblage referenced
  | .referenced assemblage referenced => shape = .semantic assemblage referenced
  | .value _ => False

/-- What a component is filed under on account of a committed version: the component
    numbers that can be read in its fields. -/
def Version.FiledUnder (version : Version) : Index.Heading → Prop
  | .assemblage _ => False
  | .referenced _ _ => False
  | .value value => ∃ tuple, version.payload = .fields tuple ∧
      ∃ position, tuple.nidAt? position = some value

/-- What a component with a history is filed under. Drafts do not count. -/
def History.FiledUnder (h : History) (heading : Index.Heading) : Prop :=
  h.shape.FiledUnder heading ∨ ∃ version ∈ h.committed, version.FiledUnder heading

theorem History.filedUnder_concat {h : History} {version : Version} {slots : List Slot}
    {heading : Index.Heading} :
    { h with committed := h.committed ++ [version], slots }.FiledUnder heading ↔
      version.FiledUnder heading ∨ h.FiledUnder heading := by
  simp only [FiledUnder, List.mem_append, List.mem_singleton, or_and_right, exists_or,
    exists_eq_left]
  rw [← or_assoc, or_comm]

/-! ## Filing -/

namespace Index

variable {i : Index} {heading : Heading} {n nid : Nid}

@[simp] theorem not_mem_under_empty : ¬ n ∈ Index.empty.under heading := by
  cases heading <;> exact NidSet.not_mem_empty

theorem mem_under_fileShape {shape : Shape} :
    n ∈ (i.fileShape nid shape).under heading ↔
      (n = nid ∧ shape.FiledUnder heading) ∨ n ∈ i.under heading := by
  cases shape with
  | concept => cases heading <;> simp [fileShape, Shape.FiledUnder]
  | semantic assemblage referenced =>
    cases heading with
    | assemblage a =>
      simp [fileShape, addSemantic, under, ofAssemblage, Postings.mem_members_insert,
        Shape.FiledUnder, and_comm, eq_comm]
    | value x => simp [fileShape, addSemantic, under, holding, Shape.FiledUnder]
    | referenced a r =>
      simp only [fileShape, addSemantic, under, referencing, Table.get?_insert, Shape.FiledUnder]
      by_cases ha : assemblage = a
      · subst ha
        simp [Postings.mem_members_insert, and_comm, eq_comm]
      · simp [ha]

theorem mem_members_foldl_insert {values : List Nid} {p : Postings} {value : Nid} :
    n ∈ (values.foldl (fun p x => p.insert x nid) p).members value ↔
      (n = nid ∧ value ∈ values) ∨ n ∈ p.members value := by
  induction values generalizing p with
  | nil => simp
  | cons x rest ih =>
    rw [List.foldl_cons, ih, Postings.mem_members_insert, List.mem_cons, and_or_left, or_assoc,
      and_comm (a := value = x), or_left_comm]

theorem mem_referencedNids {tuple : FieldTuple} {value : Nid} :
    value ∈ tuple.referencedNids ↔ ∃ position, tuple.nidAt? position = some value := by
  rw [FieldTuple.referencedNids, List.mem_filterMap]
  refine ⟨fun ⟨position, _, h⟩ => ⟨position, h⟩, fun ⟨position, h⟩ => ⟨position, ?_, h⟩⟩
  -- a number is read only where one is declared
  have hdeclared : tuple.schema.type? position = some .nid := by
    rw [FieldTuple.nidAt?] at h
    split at h
    · next hd => exact hd
    · simp at h
  have hlt : position < tuple.schema.arity := by
    rw [Schema.type?] at hdeclared
    exact (Array.getElem?_eq_some_iff.1 hdeclared).1
  rw [Schema.nidPositions, List.mem_filter, List.mem_range]
  exact ⟨hlt, by simpa using hdeclared⟩

theorem mem_under_fileVersion {version : Version} :
    n ∈ (i.fileVersion nid version).under heading ↔
      (n = nid ∧ version.FiledUnder heading) ∨ n ∈ i.under heading := by
  rw [fileVersion]
  cases hp : version.payload with
  | bare => cases heading <;> simp [Version.FiledUnder, hp]
  | fields tuple =>
    cases heading with
    | assemblage a => simp [addValues, under, ofAssemblage, Version.FiledUnder]
    | referenced a r => simp [addValues, under, referencing, Version.FiledUnder]
    | value x =>
      simp [addValues, under, holding, mem_members_foldl_insert, mem_referencedNids,
        Version.FiledUnder, hp]

theorem mem_under_foldl_fileVersion {versions : List Version} :
    n ∈ (versions.foldl (fun i version => i.fileVersion nid version) i).under heading ↔
      (n = nid ∧ ∃ version ∈ versions, version.FiledUnder heading) ∨ n ∈ i.under heading := by
  induction versions generalizing i with
  | nil => simp
  | cons version rest ih =>
    simp only [List.foldl_cons, ih, mem_under_fileVersion, List.mem_cons, exists_eq_or_imp]
    rw [and_or_left, or_assoc, or_left_comm]

/-- Filing a history adds its component wherever it is to be filed, and nothing else. -/
theorem mem_under_fileHistory {h : History} :
    n ∈ (i.fileHistory h).under heading ↔
      (n = h.nid ∧ h.FiledUnder heading) ∨ n ∈ i.under heading := by
  rw [fileHistory, mem_under_foldl_fileVersion, mem_under_fileShape, History.FiledUnder,
    and_or_left, or_assoc, or_left_comm]

theorem mem_under_foldl_fileHistory {entries : List (Nid × History)} :
    n ∈ (entries.foldl (fun i (_, h) => i.fileHistory h) i).under heading ↔
      (∃ e ∈ entries, n = e.2.nid ∧ e.2.FiledUnder heading) ∨ n ∈ i.under heading := by
  induction entries generalizing i with
  | nil => simp
  | cons e rest ih =>
    simp only [List.foldl_cons, ih, mem_under_fileHistory, List.mem_cons, exists_eq_or_imp]
    rw [or_assoc, or_left_comm]

end Index

/-! ## Indexed stores -/

namespace Store

variable {s t : Store} {heading : Index.Heading} {n : Nid}

/-- The histories of a store are kept under the numbers of their components, and a
    component is listed under a heading just when its history is filed there. -/
structure Indexed (s : Store) : Prop where
  nodup : s.histories.keys.Nodup
  nid : ∀ {n h}, s.histories.get? n = some h → h.nid = n
  mem_under_iff : ∀ {heading n}, n ∈ s.index.under heading ↔
    ∃ h, s.histories.get? n = some h ∧ h.FiledUnder heading

theorem indexed_empty : empty.Indexed where
  nodup := List.nodup_nil
  nid h := absurd h (by simp [empty])
  mem_under_iff := by
    intro heading n
    simp only [empty, Table.get?_empty, reduceCtorEq, false_and, exists_false, iff_false]
    exact Index.not_mem_under_empty

theorem Indexed.of_eq (hs : s.Indexed) (hh : t.histories = s.histories) (hi : t.index = s.index) :
    t.Indexed := by
  refine ⟨?_, ?_, ?_⟩
  · rw [hh]
    exact hs.nodup
  · rw [hh]
    exact hs.nid
  · rw [hh, hi]
    exact hs.mem_under_iff

/-- One history is put into an indexed store, and the indices are changed for its
    component alone. -/
theorem Indexed.insert {nid : Nid} {h : History} (hs : s.Indexed)
    (ht : t.histories = s.histories.insert nid h) (hnid : h.nid = nid)
    (hself : ∀ heading, nid ∈ t.index.under heading ↔ h.FiledUnder heading)
    (hother : ∀ heading n, n ≠ nid → (n ∈ t.index.under heading ↔ n ∈ s.index.under heading)) :
    t.Indexed := by
  refine ⟨?_, ?_, ?_⟩
  · rw [ht]
    exact Table.nodup_keys_insert hs.nodup _ _
  · intro n k hk
    rw [ht, Table.get?_insert] at hk
    split at hk
    · next hn =>
      obtain rfl := Option.some.inj hk
      exact hnid.trans hn
    · exact hs.nid hk
  · intro heading n
    rw [ht, Table.get?_insert]
    by_cases hn : nid = n
    · subst hn
      rw [hself, if_pos rfl]
      simp
    · rw [hother heading n (Ne.symm hn), if_neg hn]
      exact hs.mem_under_iff

/-- Indices that are made anew are filed from the histories, whatever they were. -/
theorem mem_under_rebuildIndex (hnodup : s.histories.keys.Nodup)
    (hnid : ∀ {n h}, s.histories.get? n = some h → h.nid = n) :
    n ∈ s.rebuildIndex.index.under heading ↔
      ∃ h, s.histories.get? n = some h ∧ h.FiledUnder heading := by
  rw [rebuildIndex, Index.mem_under_foldl_fileHistory, or_iff_left Index.not_mem_under_empty]
  constructor
  · rintro ⟨⟨k, h⟩, hmem, rfl, hfiled⟩
    have hget := (Table.get?_eq_some_iff hnodup).2 hmem
    exact ⟨h, by rw [hnid hget, hget], hfiled⟩
  · rintro ⟨h, hget, hfiled⟩
    exact ⟨(n, h), Table.mem_entries_of_get? hget, (hnid hget).symm, hfiled⟩

/-- Whatever an operation does to histories and indices, it does to both. -/
theorem Indexed.change (hs : s.Indexed) (hc : s.Change t) : t.Indexed := by
  cases hc with
  | kept hk => exact hs.of_eq hk.histories hk.index
  | @added h hnone ht hi =>
    refine hs.insert ht rfl (fun heading => ?_) (fun heading n hn => ?_)
    · -- what has no history is not listed yet
      rw [hi, Index.mem_under_fileHistory, hs.mem_under_iff, hnone]
      simp
    · rw [hi, Index.mem_under_fileHistory]
      simp [hn]
  | @drafted nid h slots hget ht hi =>
    have hnid := hs.nid hget
    refine hs.insert ht hnid (fun heading => ?_) (fun heading n hn => by rw [hi])
    rw [hi, hs.mem_under_iff, hget]
    simp [History.FiledUnder]
  | @committed nid h slots version hget ho ht hi =>
    have hnid := hs.nid hget
    refine hs.insert ht hnid (fun heading => ?_) (fun heading n hn => ?_)
    · rw [hi, Index.mem_under_fileVersion, hs.mem_under_iff, hget, History.filedUnder_concat]
      simp
    · rw [hi, Index.mem_under_fileVersion]
      simp [hn]
  | rebuilt ht hi =>
    refine ⟨?_, ?_, ?_⟩
    · rw [ht]
      exact hs.nodup
    · rw [ht]
      exact hs.nid
    · intro heading n
      rw [ht, hi]
      exact mem_under_rebuildIndex hs.nodup hs.nid

theorem indexed_of_reachable (hs : s.Reachable) : s.Indexed := by
  refine hs.induction indexed_empty fun op t ht => ?_
  by_cases hop : op = .reset
  · subst hop
    exact indexed_empty
  · exact ht.change (Operation.change hop t)

theorem Indexed.under_rebuildIndex (hs : s.Indexed) (heading : Index.Heading) :
    s.rebuildIndex.index.under heading = s.index.under heading := by
  refine NidSet.ext_iff_mem.2 fun n => ?_
  rw [mem_under_rebuildIndex hs.nodup hs.nid, hs.mem_under_iff]

theorem Indexed.mem_under (hs : s.Indexed) (heading : Index.Heading) (n : Nid) :
    n ∈ s.index.under heading ↔ ∃ h, s.history n = .ok h ∧ h.FiledUnder heading := by
  rw [hs.mem_under_iff]
  refine exists_congr fun h => and_congr_left fun _ => ⟨fun hg => ?_, history_eq_ok⟩
  rw [history, hg]

/-- In a store that can be reached, the indices answer what the histories say: a
    semantic is listed under its header, and under the component numbers that the
    fields of its committed versions hold. Making the indices anew changes no answer. -/
theorem rebuildIndex_answers (hs : s.Reachable) :
    (∀ assemblage, s.rebuildIndex.semanticsOf assemblage = s.semanticsOf assemblage) ∧
    (∀ assemblage referenced,
      s.rebuildIndex.semanticsAbout assemblage referenced =
        s.semanticsAbout assemblage referenced) ∧
    (∀ value, s.rebuildIndex.semanticsHolding value = s.semanticsHolding value) ∧
    (∀ n assemblage, n ∈ s.semanticsOf assemblage ↔
      ∃ h, s.history n = .ok h ∧ ∃ referenced, h.shape = .semantic assemblage referenced) ∧
    (∀ n assemblage referenced, n ∈ s.semanticsAbout assemblage referenced ↔
      ∃ h, s.history n = .ok h ∧ h.shape = .semantic assemblage referenced) ∧
    (∀ n value, n ∈ s.semanticsHolding value ↔
      ∃ h, s.history n = .ok h ∧ ∃ version ∈ h.committed, ∃ tuple,
        version.payload = .fields tuple ∧ ∃ position, tuple.nidAt? position = some value) := by
  have hi := indexed_of_reachable hs
  refine ⟨fun assemblage => hi.under_rebuildIndex (.assemblage assemblage),
    fun assemblage referenced => hi.under_rebuildIndex (.referenced assemblage referenced),
    fun value => hi.under_rebuildIndex (.value value), fun n assemblage => ?_,
    fun n assemblage referenced => ?_, fun n value => ?_⟩
  · refine (hi.mem_under (.assemblage assemblage) n).trans ?_
    simp [History.FiledUnder, Shape.FiledUnder, Version.FiledUnder]
  · refine (hi.mem_under (.referenced assemblage referenced) n).trans ?_
    simp [History.FiledUnder, Shape.FiledUnder, Version.FiledUnder]
  · refine (hi.mem_under (.value value) n).trans ?_
    simp [History.FiledUnder, Shape.FiledUnder, Version.FiledUnder]

/-- The component number of a draft is not filed. -/
theorem rebuildIndex_answers_of_founding :
    (empty.run founding).semanticsHolding ⟨7⟩ = NidSet.ofList [⟨2⟩] ∧
      (empty.run founding).semanticsHolding ⟨8⟩ = ∅ ∧
      (empty.run founding).rebuildIndex.semanticsHolding ⟨7⟩ =
        (empty.run founding).semanticsHolding ⟨7⟩ := by
  refine ⟨by cbv, by cbv, ?_⟩
  obtain ⟨-, -, hholding, -⟩ := rebuildIndex_answers ⟨founding, rfl⟩
  exact hholding ⟨7⟩

end Store

end Bitemporal
