import Bitemporal.Proofs.Store.Export

/-!
# Records among other components

A record names stamps by their numbers only, and a store that takes it in may hold stamps
and schemas of its own. It is the stamps that are taken in before that make the numbers mean
the same: a table that was refilled from rows says what they say, whatever it said before
(`holds_of_importStamps`), and it goes on to say so. A schema may be there already, but then
it is the one of the record, or the record is refused.

So a record that is accepted gives its component the shape that it has in the store that
exported it, and the same versions under the same stamps (`imported_agrees`).
-/

namespace Bitemporal.Store

variable {s t t' u : Store} {m n : Nid} {h : History} {octets : List UInt8}

/-! ## Stamps -/

/-- Stamps that were taken in are what the table says. -/
theorem holds_of_importStamps {rows : List Record.StampRow}
    (hi : (importStamps (Record.encodeStamps rows)).perform t = (.ok (), t')) :
    rows.length < UInt32.size ∧ t'.stamps.Holds rows := by
  cases hd : Record.decodeStamps (Record.encodeStamps rows) with
  | error fault => simp [importStamps, hd] at hi
  | ok rows' =>
    obtain ⟨rfl, hlt⟩ := Record.decode_encodeStamps hd
    cases hr : t.stamps.restore rows' with
    | mk answer stamps =>
      obtain ⟨rfl, rfl⟩ : answer = .ok () ∧ { t with stamps } = t' := by
        simpa [importStamps, hd, hr] using hi
      exact ⟨hlt, StampTable.holds_of_restore hr⟩

/-- An operation resets neither the store nor its stamps alone. -/
def Operation.KeepsStamps (op : Operation) : Prop :=
  op ≠ .reset ∧ op ≠ .toStamps .reset

theorem growsTo_stamps_run {ops : List Operation} (hops : ∀ op ∈ ops, op.KeepsStamps)
    (s : Store) : s.stamps.GrowsTo (s.run ops).stamps :=
  run_induction (P := fun t => s.stamps.GrowsTo t.stamps) (.refl s.stamps) fun op hop t ht =>
    ht.trans (op.growsTo_stamps (hops op hop).1 (hops op hop).2 t)

/-! ## Records -/

/-- What a record that is accepted puts in place, if the numbers of its versions stand for
    the same stamps. -/
theorem Imported.agrees {uuids : List Uuid}
    (hi : t.Imported (s.recordWith h uuids).encode (.ok m) u) (hd : s.Described h.shape)
    (hfits : (s.recordWith h uuids).Fits)
    (hdeclared : ∀ v ∈ h.committed, s.Declares h.shape v.payload)
    (hin : History.InOrder h.committed)
    (hstamps : ∀ v ∈ h.committed, t.stamps.stamp v.seq = .ok v.stamp) :
    m = h.nid ∧ u.histories.get? h.nid = some (withoutDrafts h) := by
  cases hi with
  | @installed r k schema seq identities hdecode hr hres =>
    obtain rfl : s.recordWith h uuids = r :=
      Except.ok.inj ((Record.History.decode_eq_ok_iff.2 ⟨hfits, rfl⟩).symm.trans hdecode)
    obtain ⟨-, -, -, hshape, hreplay⟩ := recordedHistory_eq_ok hr
    obtain ⟨hkshape, rfl⟩ := Prod.mk.inj ((recordedShape_recordWith_iff hd).1 hshape).1
    rw [hkshape] at hreplay
    obtain rfl : withoutDrafts h = k :=
      Except.ok.inj ((replay_recordWith hdeclared hin hstamps).symm.trans hreplay)
    exact ⟨rfl, Table.get?_insert_self ..⟩

/-- The stamps of a store are taken in by another one, whatever it holds. Later on, a
    component is exported whose versions have the numbers of these stamps, and its record is
    accepted by the other store, whatever was done there in between but for a reset. Then
    the component has the same shape there, and the same versions with the same numbers,
    under the same stamps. -/
theorem imported_agrees {ops more later : List Operation}
    (hops : ∀ op ∈ ops, op ≠ .toStamps .reset) (hmore : ∀ op ∈ more, op.KeepsStamps)
    -- there are enough numbers for the stamps that came after the export, if any
    (hsize : more ≠ [] → ((empty.run ops).run more).stamps.size < UInt32.size)
    (hstamps : (importStamps (empty.run ops).exportStamps).perform t = (.ok (), t'))
    (hlater : ∀ op ∈ later, op.KeepsStamps)
    (hh : ((empty.run ops).run more).history n = .ok h)
    (hseq : ∀ v ∈ h.committed, ∃ row ∈ (empty.run ops).stamps.rows, row.seq = v.seq)
    (hcounts : ((empty.run ops).run more).Recordable h)
    (hexport : ((empty.run ops).run more).exportHistory n = .ok octets)
    (himport : (importHistory octets).perform (t'.run later) = (.ok m, u)) :
    m = n ∧ ∃ h', u.history n = .ok h' ∧ h'.shape = h.shape ∧ h'.committed = h.committed ∧
      ∀ v ∈ h'.committed, u.stamps.stamp v.seq = .ok v.stamp := by
  have hgrow := growsTo_stamps_run hmore (empty.run ops)
  obtain ⟨hrows, hholds⟩ := holds_of_importStamps hstamps
  rw [StampTable.length_rows] at hrows
  replace hsize : ((empty.run ops).run more).stamps.size < UInt32.size := by
    by_cases hnil : more = []
    · rwa [hnil, run_nil]
    · exact hsize hnil
  -- the versions of the component are as they should be where it is exported
  have hall : ∀ op ∈ ops ++ more, op ≠ .toStamps .reset :=
    List.forall_mem_append.2 ⟨hops, fun op hop => (hmore op hop).2⟩
  rw [← run_append] at hgrow hsize hh hcounts hexport
  have hget := history_eq_ok hh
  obtain rfl : h.nid = n := (indexed_of_reachable ⟨ops ++ more, rfl⟩).nid hget
  have hkept := (contents_run hall).wellKept hget
  have hdescribed : (empty.run (ops ++ more)).Described h.shape :=
    (knows_run False.elim hget).described
  -- and their numbers stand for the same stamps where the record is taken in
  have hlast := hholds.grow (growsTo_stamps_run hlater t')
  have hsame (v : Version) (hv : v ∈ h.committed) :
      (t'.run later).stamps.stamp v.seq = .ok v.stamp :=
    hlast.stamp_of_places hgrow hsize ((contents_run hall).marks trivial hget v hv) (hseq v hv)
  obtain ⟨uuids, hu, rfl⟩ := exportHistory_eq_ok hdescribed hget hexport
  have hi := imported (t'.run later) ((empty.run (ops ++ more)).recordWith h uuids).encode
  rw [himport] at hi
  obtain ⟨rfl, hput⟩ := hi.agrees hdescribed ((fits_recordWith_iff hdescribed hu).2 hcounts)
    (fun v hv => (hkept.committed v hv).2) hkept.inOrder hsame
  exact ⟨rfl, withoutDrafts h, history_eq_ok_iff.2 hput, rfl, rfl,
    fun v hv => hi.tablesGrow.stamps.stamp_eq (hsame v hv)⟩

/-! ### A store with a component of its own -/

/-- Another concept under the number 1, with a schema, and with a stamp that is among those
    of the founding run. -/
def receiving : List Operation :=
  [.create [.uniform 9] .concept, .defineAssemblage ⟨1⟩ ⟨#[.nid]⟩,
    .toStamps (.intern (foundingStamp ⟨10⟩))]

/-- A stamp that is interned before the record comes. -/
def meanwhile : List Operation :=
  [.toStamps (.intern (foundingStamp ⟨40⟩))]

/-- It takes in the stamps of the founding run. -/
def received : Store :=
  { empty.run receiving with stamps := (empty.run founding).stamps }

theorem importStamps_receiving :
    (importStamps (empty.run founding).exportStamps).perform (empty.run receiving) =
      (.ok (), received) := by
  rw [importStamps, exportStamps, Record.decodeStamps_eq_ok_iff.2 ⟨by decide, rfl⟩]
  cbv

/-- And it accepts the record of the semantic. -/
theorem importHistory_received :
    ∃ h octets u, (empty.run (founding ++ sequel)).history ⟨2⟩ = .ok h ∧
      h.committed.length = 2 ∧ (empty.run (founding ++ sequel)).Recordable h ∧
      (∀ v ∈ h.committed, ∃ row ∈ (empty.run founding).stamps.rows, row.seq = v.seq) ∧
      (empty.run (founding ++ sequel)).exportHistory ⟨2⟩ = .ok octets ∧
      (importHistory octets).perform (received.run meanwhile) = (.ok ⟨2⟩, u) := by
  obtain ⟨h, hh, hlength, hcounts⟩ := recordable_sequel
  obtain ⟨h', r, k, schema, seq, identities, hh', hseq, hrecord, hwith, hnid, hr, hres⟩ :
      ∃ h r k schema seq identities, (empty.run (founding ++ sequel)).history ⟨2⟩ = .ok h ∧
        (∀ v ∈ h.committed, ∃ row ∈ (empty.run founding).stamps.rows, row.seq = v.seq) ∧
        (empty.run (founding ++ sequel)).recordOf ⟨2⟩ = .ok r ∧
        (empty.run (founding ++ sequel)).recordWith h [.uniform 2] = r ∧ h.nid = ⟨2⟩ ∧
        (received.run meanwhile).recordedHistory r = .ok (k, schema) ∧
        (received.run meanwhile).identities.restore r.nid r.uuids r.kind = (.ok seq, identities) :=
    ⟨_, _, _, _, _, _, by cbv, by decide, by cbv, by cbv, by cbv, by cbv, by cbv⟩
  obtain rfl : h = h' := Except.ok.inj (hh.symm.trans hh')
  have hu : (empty.run (founding ++ sequel)).identities.uuidsOf h.nid = .ok [.uniform 2] := by
    rw [hnid]
    cbv
  have hdescribed : (empty.run (founding ++ sequel)).Described h.shape :=
    (knows_run False.elim (history_eq_ok hh)).described
  subst hwith
  have hdecode := Record.History.decode_eq_ok_iff.2
    ⟨(fits_recordWith_iff hdescribed hu).2 hcounts, rfl⟩
  have himport := perform_importHistory hdecode hr hres
  rw [show (Store.recordWith _ h [.uniform 2]).nid = ⟨2⟩ from hnid] at himport
  exact ⟨h, _, _, hh, hlength, hcounts, hseq, by rw [exportHistory, hrecord]; rfl, himport⟩

theorem imported_agrees_in_receiving :
    ∃ h octets u h', (importStamps (empty.run founding).exportStamps).perform
        (empty.run receiving) = (.ok (), received) ∧
      ((empty.run founding).run sequel).history ⟨2⟩ = .ok h ∧ h.committed.length = 2 ∧
      ((empty.run founding).run sequel).exportHistory ⟨2⟩ = .ok octets ∧
      (importHistory octets).perform (received.run meanwhile) = (.ok ⟨2⟩, u) ∧
      u.history ⟨2⟩ = .ok h' ∧ h'.shape = h.shape ∧ h'.committed = h.committed := by
  obtain ⟨h, octets, u, hh, hlength, hcounts, hseq, hexport, himport⟩ := importHistory_received
  rw [run_append] at hh hcounts hexport
  obtain ⟨-, h', hh', hshape, hcommitted, -⟩ := imported_agrees (by simp [founding])
    (by simp [sequel, Operation.KeepsStamps]) (fun _ => by decide) importStamps_receiving
    (by simp [meanwhile, Operation.KeepsStamps]) hh hseq hcounts hexport himport
  exact ⟨h, octets, u, h', importStamps_receiving, hh, hlength, hexport, himport, hh', hshape,
    hcommitted⟩

end Bitemporal.Store
