import Bitemporal.Proofs.History
import Bitemporal.Proofs.Store.Change
import Bitemporal.Viewpoint
import Mathlib

/-!
# The past of a component

A history only grows, and at its end: after an operation that does not reset the
store, the history of a component begins with the versions that it had, and none of
those behind them is earlier than the last of them was (`History.GrowsTo`). This is
what `History.checkOrder` is for, on both ways in which a version is committed, and
it is why a record is refused for a component that has a history.

A viewpoint looks at committed versions in its windows and at nothing else. So if
its windows end before the last commit of a component, the versions that came since
are out of its sight, and it goes on answering what it answered
(`Store.run_keeps_past`).

The same can be said of a whole store. If the windows end before everything that has
been committed since, then components that came since are there without being seen,
and of those before them the same is current (`Viewpoint.seesSame_of_growsTo`).
-/

namespace Bitemporal

/-! ## Growing histories -/

/-- A history becomes another one: the shape stays, and versions are added at the
    end, none of them earlier than the last one there was. -/
structure History.GrowsTo (h h' : History) : Prop where
  nid : h'.nid = h.nid
  shape : h'.shape = h.shape
  committed : ∃ later, h'.committed = h.committed ++ later ∧
    ∀ last, h.lastTime? = some last → ∀ version ∈ later, last ≤ version.stamp.time

namespace History

variable {h h' h'' : History}

theorem GrowsTo.refl (h : History) : h.GrowsTo h :=
  ⟨rfl, rfl, [], (List.append_nil _).symm, fun _ _ _ hv => absurd hv List.not_mem_nil⟩

/-- Nothing is asked of the slots. -/
theorem growsTo_slots (h : History) (slots : List Slot) : h.GrowsTo { h with slots } :=
  ⟨rfl, rfl, (GrowsTo.refl h).committed⟩

/-- The last time of a history that grows does not go back. -/
theorem GrowsTo.lastTime? (hg : h.GrowsTo h') {last : Timestamp} (hl : h.lastTime? = some last) :
    ∃ last', h'.lastTime? = some last' ∧ last ≤ last' := by
  obtain ⟨later, hc, hlater⟩ := hg.committed
  rcases later.eq_nil_or_concat with rfl | ⟨rest, version, rfl⟩
  · rw [List.append_nil] at hc
    refine ⟨last, ?_, Std.le_refl last⟩
    rw [History.lastTime?, hc]
    exact hl
  · refine ⟨version.stamp.time, ?_, hlater last hl version (by simp)⟩
    rw [List.concat_eq_append, ← List.append_assoc] at hc
    exact lastTime?_concat hc

theorem GrowsTo.trans (hg : h.GrowsTo h') (hg' : h'.GrowsTo h'') : h.GrowsTo h'' := by
  obtain ⟨later, hc, hlater⟩ := hg.committed
  obtain ⟨later', hc', hlater'⟩ := hg'.committed
  refine ⟨hg'.nid.trans hg.nid, hg'.shape.trans hg.shape, later ++ later', ?_, ?_⟩
  · rw [hc', hc, List.append_assoc]
  · intro last hl version hv
    rcases List.mem_append.1 hv with hv | hv
    · exact hlater last hl version hv
    · obtain ⟨last', hl', hle⟩ := hg.lastTime? hl
      exact Std.le_trans hle (hlater' last' hl' version hv)

/-- A history may grow by a version if the order of commits is kept. -/
theorem growsTo_committed {version : Version} {slots : List Slot}
    (ho : h.checkOrder version.stamp.time = .ok ()) :
    h.GrowsTo { h with committed := h.committed ++ [version], slots } := by
  refine ⟨rfl, rfl, [version], rfl, fun last hl v hv => ?_⟩
  obtain rfl := List.mem_singleton.1 hv
  exact le_of_checkOrder hl ho

end History

/-! ## Stores whose histories grow -/

namespace Store

variable {s t u : Store}

/-- Every history of a store is there in another one, or has grown. -/
def GrowsTo (s t : Store) : Prop :=
  ∀ nid h, s.histories.get? nid = some h → ∃ h', t.histories.get? nid = some h' ∧ h.GrowsTo h'

theorem GrowsTo.refl (s : Store) : s.GrowsTo s :=
  fun _ h hh => ⟨h, hh, .refl h⟩

theorem GrowsTo.trans (hst : s.GrowsTo t) (htu : t.GrowsTo u) : s.GrowsTo u := by
  intro nid h hh
  obtain ⟨h', hh', hg⟩ := hst nid h hh
  obtain ⟨h'', hh'', hg'⟩ := htu nid h' hh'
  exact ⟨h'', hh'', hg.trans hg'⟩

theorem growsTo_of_eq (ht : t.histories = s.histories) : s.GrowsTo t := by
  intro nid h hh
  exact ⟨h, by rw [ht, hh], .refl h⟩

/-- A store in which one history is put in the place of one from which it has grown. -/
theorem growsTo_insert {nid : Nid} {h h' : History} (hh : s.histories.get? nid = some h)
    (hg : h.GrowsTo h') (ht : t.histories = s.histories.insert nid h') : s.GrowsTo t := by
  intro nid' k hk
  rw [ht]
  by_cases hn : nid = nid'
  · subst hn
    obtain rfl : h = k := Option.some.inj (hh.symm.trans hk)
    exact ⟨h', Table.get?_insert_self .., hg⟩
  · exact ⟨k, by rw [Table.get?_insert_of_ne _ _ hn, hk], .refl k⟩

theorem Change.growsTo (hc : s.Change t) : s.GrowsTo t := by
  cases hc with
  | kept hk => exact growsTo_of_eq hk.histories
  | @added h hn ht hi =>
    intro nid k hk
    have hne : h.nid ≠ nid := by
      rintro rfl
      simp [hn] at hk
    exact ⟨k, by rw [ht, Table.get?_insert_of_ne _ _ hne, hk], .refl k⟩
  | drafted hh ht hi => exact growsTo_insert hh (History.growsTo_slots ..) ht
  | committed hh ho ht hi => exact growsTo_insert hh (History.growsTo_committed ho) ht
  | rebuilt ht hi => exact growsTo_of_eq ht

/-- Histories grow along all runs without a reset. -/
theorem growsTo_run {ops : List Operation} (hops : ∀ op ∈ ops, op ≠ .reset) (s : Store) :
    s.GrowsTo (s.run ops) :=
  run_induction (P := s.GrowsTo) (.refl s) fun op hop t ht =>
    ht.trans (Operation.change (hops op hop) t).growsTo

/-- The committed versions of a component, none if it is not there. -/
def committedOf (s : Store) (n : Nid) : List Version :=
  match s.histories.get? n with
  | some h => h.committed
  | none => []

theorem mem_committedOf_iff {n : Nid} {version : Version} :
    version ∈ s.committedOf n ↔ ∃ h, s.histories.get? n = some h ∧ version ∈ h.committed := by
  rw [committedOf]
  cases s.histories.get? n <;> simp

/-- The versions of a component that have been committed between two stores. -/
def committedSince (s t : Store) (n : Nid) : List Version :=
  (t.committedOf n).drop (s.committedOf n).length

/-- What is committed of a component only grows. -/
theorem committedOf_of_growsTo (hg : s.GrowsTo t) (n : Nid) :
    t.committedOf n = s.committedOf n ++ s.committedSince t n := by
  have hprefix : s.committedOf n <+: t.committedOf n := by
    cases hh : s.histories.get? n with
    | none =>
      rw [Store.committedOf, hh]
      exact List.nil_prefix
    | some h =>
      obtain ⟨h', hh', hgrows⟩ := hg n h hh
      obtain ⟨later, hc, -⟩ := hgrows.committed
      simp only [Store.committedOf, hh, hh', hc]
      exact List.prefix_append ..
  exact (List.prefix_iff_eq_append.1 hprefix).symm

theorem mem_components_of_mem_committedSince {n : Nid} {version : Version}
    (hv : version ∈ s.committedSince t n) : n ∈ t.components := by
  refine Table.contains_iff_mem_keys.1 ?_
  cases hn : t.histories.get? n with
  | none => simp [committedSince, committedOf, hn] at hv
  | some h => rw [Table.contains, hn, Option.isSome_some]

end Store

/-! ## What a viewpoint sees of a history that grows -/

namespace Viewpoint

variable {v : Viewpoint} {h h' : History} {last : Timestamp}

/-- The windows of a viewpoint all end before a time. -/
def EndsBefore (v : Viewpoint) (time : Timestamp) : Prop :=
  ∀ path seen, v.window? path = some seen → seen < time

/-- A stamp that is later than all windows is in none of them. -/
theorem inWindow_eq_false {stamp : Stamp} (hends : v.EndsBefore stamp.time) :
    v.inWindow stamp = false := by
  rw [inWindow, Bool.and_eq_false_iff]
  right
  split
  · next seen hseen =>
    rw [decide_eq_false_iff_not, Std.not_le]
    exact hends stamp.path seen hseen
  · rfl

/-- Versions that are later than all windows do not add to what passes, whichever statuses
    count. -/
theorem filter_passes_append {old later : List Version} (statuses : StatusSet)
    (hlater : ∀ version ∈ later, v.EndsBefore version.stamp.time) :
    (old ++ later).filter (v.passes statuses) = old.filter (v.passes statuses) := by
  have hnone : later.filter (v.passes statuses) = [] := by
    refine List.filter_eq_nil_iff.2 fun version hv => ?_
    rw [passes, inWindow_eq_false (hlater version hv)]
    simp
  rw [List.filter_append, hnone, List.append_nil]

/-- If the windows end before the last commit, what passes is what passed before the
    history grew, whichever statuses count. -/
theorem filter_passes_of_growsTo (statuses : StatusSet) (hg : h.GrowsTo h')
    (hlast : h.lastTime? = some last)
    (hpast : ∀ path seen, v.window? path = some seen → seen < last) :
    h'.committed.filter (v.passes statuses) = h.committed.filter (v.passes statuses) := by
  obtain ⟨later, hc, hlater⟩ := hg.committed
  rw [hc]
  refine filter_passes_append statuses fun version hv path seen hw => ?_
  exact Std.lt_of_lt_of_le (hpast path seen hw) (hlater last hlast version hv)

/-- What is current of a history depends on nothing but what passes of it. -/
theorem current_congr {h h' : History}
    (hpasses : h'.committed.filter (v.passes .all) = h.committed.filter (v.passes .all)) :
    v.current h' = v.current h := by
  rw [current, current, resolve, resolve, hpasses]

theorem chooseAll_nil (rules : List TieBreak) : v.chooseAll [] rules = [] := by
  cases rules <;> rfl

theorem current_eq_empty {h : History} (hpasses : h.committed.filter (v.passes .all) = []) :
    v.current h = .empty := by
  rw [current, resolve, hpasses, candidates, List.foldl_nil, chooseAll_nil]
  rfl

/-- Two stores look the same from a viewpoint: what is in the first one is in the second
    one, of the same shape, and the same is current of it; and of what is in the second one
    only, nothing is current. -/
structure SeesSame (v : Viewpoint) (s t : Store) : Prop where
  kept : ∀ n h, s.histories.get? n = some h →
    ∃ h', t.histories.get? n = some h' ∧ h'.shape = h.shape ∧ v.current h' = v.current h
  added : ∀ n h, s.histories.get? n = none → t.histories.get? n = some h → v.current h = .empty

/-- Stores look the same if all that has been committed between them is later than all windows:
    edges and concepts that came since are there, but not seen. -/
theorem seesSame_of_growsTo {s t : Store} (hg : s.GrowsTo t)
    (hlater : ∀ n, ∀ version ∈ s.committedSince t n, v.EndsBefore version.stamp.time) :
    v.SeesSame s t := by
  have hpasses (n : Nid) :
      (t.committedOf n).filter (v.passes .all) = (s.committedOf n).filter (v.passes .all) := by
    rw [Store.committedOf_of_growsTo hg n]
    exact filter_passes_append .all (hlater n)
  refine ⟨fun n h hh => ?_, fun n h hn hh => ?_⟩
  · obtain ⟨h', hh', hgrows⟩ := hg n h hh
    refine ⟨h', hh', hgrows.shape, current_congr ?_⟩
    simpa [Store.committedOf, hh, hh'] using hpasses n
  · refine current_eq_empty ?_
    simpa [Store.committedOf, hn, hh] using hpasses n

end Viewpoint

/-- The past of a component is frozen. If the windows of a viewpoint all end before
    the last commit of the component, then it sees the same of it after any run of
    operations without a reset. -/
theorem Store.run_keeps_past {s : Store} {nid : Nid} {h : History} {last : Timestamp}
    {v : Viewpoint} {ops : List Operation} (hh : s.history nid = .ok h)
    (hlast : h.lastTime? = some last)
    (hpast : ∀ path seen, v.window? path = some seen → seen < last)
    (hops : ∀ op ∈ ops, op ≠ .reset) :
    ∃ h', (s.run ops).history nid = .ok h' ∧
      v.visible h' = v.visible h ∧ v.latest h' = v.latest h ∧ v.current h' = v.current h := by
  obtain ⟨h', hh', hg⟩ := growsTo_run hops s nid h (history_eq_ok hh)
  have hpasses : ∀ statuses, h'.committed.filter (v.passes statuses) =
      h.committed.filter (v.passes statuses) :=
    fun statuses => Viewpoint.filter_passes_of_growsTo statuses hg hlast hpast
  have hresolve : ∀ statuses, v.resolve statuses h' = v.resolve statuses h := by
    intro statuses
    rw [Viewpoint.resolve, hpasses statuses]
    rfl
  refine ⟨h', by rw [history, hh'], hpasses _, hresolve _, ?_⟩
  rw [Viewpoint.current, hresolve .all]
  rfl

/-- The path 1 up to a time between the two commits of the founding run. -/
def Store.betweenCommits : Filter where
  statuses := .active
  positions := [⟨⟨1⟩, ⟨15⟩⟩]
  modules := .any
  languages := []
  positions_ne_nil := by simp
  nodup_paths := by decide

/-- A run that commits the draft and one version more. A record that is none and a
    commit before the last one are refused in it. -/
def Store.furtherCommits : List Store.Operation :=
  [.commit ⟨⟨2⟩, 2⟩ ⟨30⟩, .importHistory [0], .append ⟨2⟩ (foundingStamp ⟨12⟩) [.nid ⟨9⟩],
    .append ⟨2⟩ (foundingStamp ⟨30⟩) [.nid ⟨9⟩], .rebuildIndex]

theorem Store.run_keeps_past_of_founding :
    ∃ v h h', Viewpoint.make betweenCommits .empty .standard = .ok v ∧
      (empty.run founding).history ⟨2⟩ = .ok h ∧
      ((empty.run founding).run furtherCommits).history ⟨2⟩ = .ok h' ∧
      h.committed.length = 2 ∧ h'.committed.length = 4 ∧
      v.visible h' = v.visible h ∧ v.latest h' = v.latest h ∧ v.current h' = v.current h := by
  obtain ⟨v, hv, hw⟩ : ∃ v, Viewpoint.make betweenCommits .empty .standard = .ok v ∧
      v.windows = ⟨[(⟨1⟩, ⟨15⟩)]⟩ := ⟨_, by cbv, by cbv⟩
  obtain ⟨h, hh, hl, hlen⟩ : ∃ h, (empty.run founding).history ⟨2⟩ = .ok h ∧
      h.lastTime? = some ⟨20⟩ ∧ h.committed.length = 2 := ⟨_, by cbv, by cbv, by cbv⟩
  obtain ⟨h', hh', hlen'⟩ : ∃ h',
      ((empty.run founding).run furtherCommits).history ⟨2⟩ = .ok h' ∧
      h'.committed.length = 4 := ⟨_, by cbv, by cbv⟩
  have hpast : ∀ path seen, v.window? path = some seen → seen < ⟨20⟩ := by
    intro path seen hs
    rw [Viewpoint.window?, hw] at hs
    obtain ⟨-, rfl⟩ := Prod.mk.inj (List.mem_singleton.1 (Table.mem_entries_of_get? hs))
    decide
  have hops : ∀ op ∈ furtherCommits, op ≠ .reset := by simp [furtherCommits]
  obtain ⟨k, hk, hsame⟩ := run_keeps_past hh hl hpast hops
  obtain rfl : h' = k := Except.ok.inj (hh'.symm.trans hk)
  exact ⟨v, h, h', hv, hh, hh', hlen, hlen', hsame⟩

end Bitemporal
