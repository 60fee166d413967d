import Bitemporal.Proofs.Store.Published
import Bitemporal.Proofs.Taxonomy.Past

/-!
# Drafts are invisible

A taxonomy reads of its store what is published (`Store.published`). It looks at edges and
concepts from a viewpoint, which goes by the commits, and finds them by indices, which are
told of commits only. So neighbours and closures are those of what is published
(`Taxonomy.children_published`, `Taxonomy.parentThrough?_published`).

Two stores of which the same is published therefore answer alike whatever is asked of them
(`Store.answersAlike_of_published`), and so do the stores before and after an operation that
leaves nothing but a draft, answered or refused (`Store.answersAlike_after_draft`). An index
that a taxonomy was given in place of the store's own one is none of the store's: parents
are the same as long as that index names the same semantics.
-/

namespace Bitemporal

namespace Taxonomy

variable {x : Taxonomy} {s t : Store} {n child edge : Nid}

/-! ## Neighbours -/

theorem sees_published (x : Taxonomy) (s : Store) (n : Nid) :
    x.sees s.published n = x.sees s n := by
  rw [sees, sees, Store.get?_published]
  cases s.histories.get? n <;> rfl

theorem parentThrough?_published (x : Taxonomy) (s : Store) (child edge : Nid) :
    x.parentThrough? s.published child edge = x.parentThrough? s child edge := by
  rw [parentThrough?, parentThrough?, Store.get?_published]
  cases s.histories.get? edge with
  | none => rfl
  | some h =>
    simp only [Option.map_some, sees_published]
    rfl

theorem mapM_history_published (s : Store) (l : List Nid) :
    l.mapM s.published.history = (l.mapM s.history).map (List.map History.published) := by
  induction l with
  | nil => rfl
  | cons n rest ih =>
    rw [List.mapM_cons, List.mapM_cons, ih, Store.history_published]
    cases s.history n with
    | error e => rfl
    | ok h =>
      cases rest.mapM s.history with
      | error e => rfl
      | ok edges => rfl

theorem children_published (x : Taxonomy) (s : Store) (n : Nid) :
    x.children s.published n = x.children s n := by
  have hsees : x.sees s.published = x.sees s := by
    funext concept
    exact sees_published x s concept
  rw [children, children, Store.history_published, show s.published.semanticsAbout x.assemblage n =
    s.semanticsAbout x.assemblage n from rfl, mapM_history_published, hsees]
  cases s.history n with
  | error e => rfl
  | ok h =>
    cases (s.semanticsAbout x.assemblage n).toList.mapM s.history with
    | error e => rfl
    | ok edges =>
      show Except.ok (NidSet.ofList (((edges.map _).flatMap x.ends).filter _)) = _
      rw [List.flatMap_map]
      rfl

/-- What is above a component is what the hits of the index lead to, if it is there. -/
theorem parents_eq_map (x : Taxonomy) (s : Store) (n : Nid) :
    x.parents s n = (s.history n).map fun _ =>
      .ofList ((x.reverse s n).filterMap (x.parentThrough? s n)) := by
  rw [parents]
  cases s.history n <;> rfl

/-! ## Closures -/

/-- The walk reads the store through the questions for children. -/
theorem explore_congr (hsame : ∀ n, x.children t n = x.children s n) (edges : Table Nid NidSet)
    (reached todo : List Nid) : x.explore t edges reached todo = x.explore s edges reached todo := by
  fun_induction explore x s edges reached todo with
  | case1 edges reached => rw [explore]
  | case2 edges reached parent rest e herror =>
    rw [explore]
    split
    · next e' herror' =>
      rw [hsame, herror] at herror'
      rw [Except.error.inj herror']
    · next below hbelow =>
      rw [hsame, herror] at hbelow
      cases hbelow
  | case3 edges reached parent rest below hbelow ih =>
    rw [explore]
    split
    · next e herror =>
      rw [hsame, hbelow] at herror
      cases herror
    · next below' hbelow' =>
      rw [hsame, hbelow] at hbelow'
      obtain rfl := Except.ok.inj hbelow'
      exact ih

theorem closureFrom_congr (hsame : ∀ n, x.children t n = x.children s n) (roots : List Nid) :
    x.closureFrom t roots = x.closureFrom s roots := by
  rw [closureFrom, closureFrom, explore_congr hsame]

end Taxonomy

namespace Store

variable {s t : Store}

/-- What reads of a store only what is published answers the same of two stores of which the
    same is published. -/
theorem eq_of_published {α : Type} {f : Store → α} (hf : ∀ s, f s.published = f s)
    (h : t.published = s.published) : f t = f s := by
  rw [← hf t, h, hf]

/-- Two stores answer alike about their contents. -/
structure AnswersAlike (s t : Store) : Prop where
  stamps : t.stamps = s.stamps
  lineage : t.lineage = s.lineage
  components : t.components = s.components
  /-- The lists of commits. -/
  committed : ∀ n, (t.history n).map History.committed = (s.history n).map History.committed
  /-- The indices, and what they answer. -/
  index : t.index = s.index
  semanticsOf : ∀ assemblage, t.semanticsOf assemblage = s.semanticsOf assemblage
  semanticsAbout : ∀ assemblage n, t.semanticsAbout assemblage n = s.semanticsAbout assemblage n
  semanticsHolding : ∀ value, t.semanticsHolding value = s.semanticsHolding value
  /-- The indices if they are made anew. -/
  rebuildIndex : t.rebuildIndex.index = s.rebuildIndex.index
  /-- The records. -/
  exportStamps : t.exportStamps = s.exportStamps
  exportHistory : ∀ n, t.exportHistory n = s.exportHistory n
  /-- What is seen from any viewpoint. -/
  visible : ∀ (v : Viewpoint) n, (t.history n).map v.visible = (s.history n).map v.visible
  latest : ∀ (v : Viewpoint) n, (t.history n).map v.latest = (s.history n).map v.latest
  current : ∀ (v : Viewpoint) n, (t.history n).map v.current = (s.history n).map v.current
  /-- The taxonomies that can be made, and what they answer. -/
  make : ∀ assemblage childField v,
    Taxonomy.make t assemblage childField v = Taxonomy.make s assemblage childField v
  children : ∀ (x : Taxonomy) n, x.children t n = x.children s n
  parents : ∀ (x : Taxonomy) n, x.reverse t n = x.reverse s n → x.parents t n = x.parents s n
  ownParents : ∀ x : Taxonomy, x.UsesOwnIndex → ∀ n, x.parents t n = x.parents s n
  closureFrom : ∀ (x : Taxonomy) roots, x.closureFrom t roots = x.closureFrom s roots

theorem map_history_eq {α : Type} {f : History → α} (hf : ∀ h, f h.published = f h)
    (h : t.published = s.published) (n : Nid) : (t.history n).map f = (s.history n).map f :=
  eq_of_published (f := fun s => (s.history n).map f) (fun s => map_history_published hf s n) h

theorem parents_of_published (h : t.published = s.published) {x : Taxonomy} {n : Nid}
    (hreverse : x.reverse t n = x.reverse s n) : x.parents t n = x.parents s n := by
  have hthrough : x.parentThrough? t n = x.parentThrough? s n := by
    funext edge
    exact eq_of_published (f := (x.parentThrough? · n edge))
      (fun s => x.parentThrough?_published s n edge) h
  rw [Taxonomy.parents_eq_map, Taxonomy.parents_eq_map, hreverse, hthrough]
  exact map_history_eq (fun _ => rfl) h n

/-- Stores of which the same is published answer alike. -/
theorem answersAlike_of_published (h : t.published = s.published) : s.AnswersAlike t := by
  have hindex : t.index = s.index := eq_of_published (f := index) (fun _ => rfl) h
  have hstamps : t.stamps = s.stamps := eq_of_published (f := stamps) (fun _ => rfl) h
  have hchildren (x : Taxonomy) (n : Nid) : x.children t n = x.children s n :=
    eq_of_published (f := (x.children · n)) (fun s => x.children_published s n) h
  exact
    { stamps := hstamps
      lineage := eq_of_published (f := lineage) (fun _ => rfl) h
      components := eq_of_published components_published h
      committed := map_history_eq (fun _ => rfl) h
      index := hindex
      semanticsOf := fun a => by rw [semanticsOf, semanticsOf, hindex]
      semanticsAbout := fun a n => by rw [semanticsAbout, semanticsAbout, hindex]
      semanticsHolding := fun value => by rw [semanticsHolding, semanticsHolding, hindex]
      rebuildIndex := eq_of_published (f := fun s => s.rebuildIndex.index) rebuildIndex_published h
      exportStamps := by rw [exportStamps, exportStamps, hstamps]
      exportHistory := fun n =>
        eq_of_published (f := (exportHistory · n)) (fun s => exportHistory_published s n) h
      visible := fun v => map_history_eq (fun _ => rfl) h
      latest := fun v => map_history_eq (fun _ => rfl) h
      current := fun v => map_history_eq (fun _ => rfl) h
      make := fun a i v => eq_of_published (f := (Taxonomy.make · a i v)) (fun _ => rfl) h
      children := hchildren
      parents := fun x n => parents_of_published h
      ownParents := fun x hx n => by
        refine parents_of_published h ?_
        rw [hx, hx, semanticsHolding, semanticsHolding, hindex]
      closureFrom := fun x => x.closureFrom_congr (hchildren x) }

/-- Drafts are invisible. After a version is appended without a time, or a draft is given
    other values, be it answered or refused, the store answers about its stamps, its commits,
    its indices and its records as before, and so do all viewpoints and taxonomies. -/
theorem answersAlike_after_draft {op : Operation} (hop : op.Drafts) (s : Store) :
    s.AnswersAlike (op.after s) :=
  answersAlike_of_published (published_after_draft hop s)

/-- A draft that retires the edge from the concept 2 to the concept 1. -/
def retirement : Operation :=
  .append ⟨5⟩ { foundingStamp .uncommitted with status := .inactive } [.nid ⟨1⟩]

/-- The edge is there until the draft is committed. -/
theorem answersAlike_after_draft_of_retirement :
    ∃ v, Viewpoint.make betweenCommits .empty .standard = .ok v ∧
      retirement.Drafts ∧
      (retirement.perform (empty.run Taxonomy.retargeting)).1 = .ok (.version ⟨⟨5⟩, 2⟩) ∧
      (empty.run Taxonomy.retargeting).AnswersAlike
        (retirement.after (empty.run Taxonomy.retargeting)) ∧
      (Taxonomy.ofFirst v).children (retirement.after (empty.run Taxonomy.retargeting)) ⟨2⟩ =
        .ok (.ofList [⟨1⟩]) ∧
      (Taxonomy.ofFirst v).children
        ((empty.run Taxonomy.retargeting).run [retirement, .commit ⟨⟨5⟩, 2⟩ ⟨14⟩]) ⟨2⟩ =
        .ok (.ofList []) := by
  obtain ⟨v, hv, hbelow, hretired⟩ :
      ∃ v, Viewpoint.make betweenCommits .empty .standard = .ok v ∧
        (Taxonomy.ofFirst v).children (empty.run Taxonomy.retargeting) ⟨2⟩ =
          .ok (.ofList [⟨1⟩]) ∧
        (Taxonomy.ofFirst v).children
          ((empty.run Taxonomy.retargeting).run [retirement, .commit ⟨⟨5⟩, 2⟩ ⟨14⟩]) ⟨2⟩ =
          .ok (.ofList []) :=
    ⟨_, by cbv, by cbv, by cbv⟩
  have hop : retirement.Drafts := .append (by decide)
  have halike := answersAlike_after_draft hop (empty.run Taxonomy.retargeting)
  exact ⟨v, hv, hop, by cbv, halike, (halike.children _ _).trans hbelow, hretired⟩

end Store

end Bitemporal
