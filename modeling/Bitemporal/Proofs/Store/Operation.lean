import Bitemporal.Proofs.Store.Action
import Bitemporal.Store.Transfer
import Bitemporal.Store.Versions

/-!
# Operations and runs

An `Operation` is a request with its arguments that may change a store: one of the
store itself, or one that goes past it to the identities, the stamps or the paths
that it owns. Each is answered or refused, and leaves a store (`Operation.perform`).
A run takes up operations one after the other, whether they are answered or
refused (`Store.run`). The stores of interest are those that a run makes of the empty
store (`Store.Reachable`).
-/

namespace Bitemporal

/-! ## Operations on the tables of a store -/

/-- A request to identities. -/
inductive Identities.Operation where
  | nidFor (uuids : List Uuid)
  | allocate (fresh : Uuid)
  | registerKind (nid : Nid) (kind : Kind)
  | restore (nid : Nid) (uuids : List Uuid) (kind : Kind)
  | reset

/-- The identities after a request, the same ones if it was refused without effect. -/
def Identities.after (ids : Identities) : Operation → Identities
  | .nidFor uuids =>
    match ids.nidFor uuids with
    | .ok (_, ids) => ids
    | .error _ => ids
  | .allocate fresh => (ids.allocate fresh).2
  | .registerKind nid kind =>
    match ids.registerKind nid kind with
    | .ok (_, ids) => ids
    | .error _ => ids
  | .restore nid uuids kind => (ids.restore nid uuids kind).2
  | .reset => .empty

/-- The identities after a list of requests. -/
def Identities.run (ids : Identities) (ops : List Operation) : Identities :=
  ops.foldl after ids

/-- A request to interned stamps. -/
inductive StampTable.Operation where
  | intern (stamp : Stamp)
  | restore (rows : List Record.StampRow)
  | reset

/-- The stamps after a request, the same ones if it was refused without effect. -/
def StampTable.after (t : StampTable) : Operation → StampTable
  | .intern stamp =>
    match t.intern stamp with
    | .ok (_, t) => t
    | .error _ => t
  | .restore rows => (t.restore rows).2
  | .reset => .empty

/-- A request to declared paths. -/
inductive Lineage.Operation where
  | declare (path : Nid) (origins : List Origin)
  | reset

/-- The paths after a request, the same ones if it was refused. -/
def Lineage.after (l : Lineage) : Operation → Lineage
  | .declare path origins =>
    match l.declare path origins with
    | .ok l => l
    | .error _ => l
  | .reset => .empty

/-- An identifier whose octets are all the same: the short runs that theorems are applied
    to need some. -/
def Uuid.uniform (octet : UInt8) : Uuid := ⟨List.replicate 16 octet, List.length_replicate⟩

/-! ## Operations on a store -/

namespace Store

/-- A request to a store. -/
inductive Operation where
  | create (uuids : List Uuid) (shape : Shape)
  | createPath (fresh : Uuid) (origins : List Origin)
  | defineAssemblage (assemblage : Nid) (schema : Schema)
  | declarePath (path : Nid) (origins : List Origin)
  | append (nid : Nid) (stamp : Stamp) (values : List FieldValue)
  | updateDraft (handle : Handle) (values : List FieldValue)
  | commit (handle : Handle) (time : Timestamp)
  | importStamps (octets : List UInt8)
  | importHistory (octets : List UInt8)
  | rebuildIndex
  | reset
  /-- A request to the identities alone. -/
  | toIdentities (request : Identities.Operation)
  /-- A request to the stamps alone. -/
  | toStamps (request : StampTable.Operation)
  /-- A request to the paths alone. -/
  | toLineage (request : Lineage.Operation)

/-- What an operation answers. -/
inductive Reply where
  | done
  | component (nid : Nid)
  | schema (schema : Schema)
  | version (handle : Handle)
  | stamp (seq : StampSeq)

namespace Operation

/-- What an operation does. -/
def action : Operation → Action Reply
  | create uuids shape => .component <$> Store.create uuids shape
  | createPath fresh origins => .component <$> Store.createPath fresh origins
  | defineAssemblage assemblage schema => .schema <$> Store.defineAssemblage assemblage schema
  | declarePath path origins => (fun _ => .done) <$> Store.declarePath path origins
  | append nid stamp values => .version <$> Store.append nid stamp values
  | updateDraft handle values => (fun _ => .done) <$> Store.updateDraft handle values
  | commit handle time => .stamp <$> Store.commit handle time
  | importStamps octets => (fun _ => .done) <$> Store.importStamps octets
  | importHistory octets => .component <$> Store.importHistory octets
  | rebuildIndex => (fun _ => .done) <$> (modify Store.rebuildIndex : Action PUnit)
  | reset => (fun _ => .done) <$> (set Store.empty : Action PUnit)
  | toIdentities request => (fun _ => .done) <$>
    (modify fun s => { s with identities := s.identities.after request } : Action PUnit)
  | toStamps request => (fun _ => .done) <$>
    (modify fun s => { s with stamps := s.stamps.after request } : Action PUnit)
  | toLineage request => (fun _ => .done) <$>
    (modify fun s => { s with lineage := s.lineage.after request } : Action PUnit)

/-- The answer of an operation on a store, and the store after it. -/
def perform (op : Operation) (s : Store) : Except Error Reply × Store :=
  op.action.perform s

/-- The store after an operation. -/
def after (op : Operation) (s : Store) : Store :=
  (op.perform s).2

end Operation

/-- The store after a list of operations. -/
def run (s : Store) (ops : List Operation) : Store :=
  ops.foldl (fun s op => op.after s) s

theorem run_nil (s : Store) : s.run [] = s := rfl

theorem run_cons (s : Store) (op : Operation) (ops : List Operation) :
    s.run (op :: ops) = (op.after s).run ops := rfl

theorem run_append (s : Store) (ops ops' : List Operation) :
    s.run (ops ++ ops') = (s.run ops).run ops' :=
  List.foldl_append

/-- What the operations of a run are answered, one after the other. -/
def replies : Store → List Operation → List (Except Error Reply)
  | _, [] => []
  | s, op :: ops => (op.perform s).1 :: replies (op.after s) ops

/-- What holds of a store and is kept by each operation of a run holds after the run. -/
theorem run_induction {P : Store → Prop} {ops : List Operation} {s : Store} (hs : P s)
    (hstep : ∀ op ∈ ops, ∀ t, P t → P (op.after t)) : P (s.run ops) := by
  induction ops generalizing s with
  | nil => exact hs
  | cons op ops ih =>
    rw [run_cons]
    refine ih (hstep op List.mem_cons_self s hs) fun op' hop' => ?_
    exact hstep op' (List.mem_cons_of_mem _ hop')

/-- A store that a run of operations makes of the empty one. -/
def Reachable (s : Store) : Prop :=
  ∃ ops, empty.run ops = s

theorem Reachable.run {s : Store} (hs : s.Reachable) (ops : List Operation) :
    (s.run ops).Reachable := by
  obtain ⟨before, rfl⟩ := hs
  exact ⟨before ++ ops, run_append ..⟩

/-- What holds of the empty store and is kept by every operation holds of every store
    that can be reached. -/
theorem Reachable.induction {P : Store → Prop} {s : Store} (hs : s.Reachable) (hempty : P empty)
    (hstep : ∀ (op : Operation) (t : Store), P t → P (op.after t)) : P s := by
  obtain ⟨ops, rfl⟩ := hs
  exact run_induction hempty fun op _ => hstep op

/-! ## A founding run

The theorems on runs are applied to it where they are stated. -/

/-- The stamp of an active version at a time. -/
def foundingStamp (time : Timestamp) : Stamp :=
  { status := .active, time, author := ⟨1⟩, module := ⟨1⟩, path := ⟨1⟩ }

/-- The concept 1, which is an assemblage too, and the semantic 2 about it, with two
    versions and a draft. Each of the three holds a component number. -/
def founding : List Operation :=
  [.create [⟨List.replicate 16 1, List.length_replicate⟩] .concept,
    .defineAssemblage ⟨1⟩ ⟨#[.nid]⟩,
    .create [⟨List.replicate 16 2, List.length_replicate⟩] (.semantic ⟨1⟩ ⟨1⟩),
    .append ⟨2⟩ (foundingStamp ⟨10⟩) [.nid ⟨1⟩],
    .append ⟨2⟩ (foundingStamp ⟨20⟩) [.nid ⟨7⟩],
    .append ⟨2⟩ (foundingStamp .uncommitted) [.nid ⟨8⟩]]

end Store

end Bitemporal
