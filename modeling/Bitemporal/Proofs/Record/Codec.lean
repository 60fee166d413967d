import Bitemporal.Proofs.Record.Envelope
import Bitemporal.Record.History
import Bitemporal.Record.Stamps

/-!
# Records read back

A record is written to octets part by part, and read in the same way. Each part is read
just from the octets that are written of it; all that is asked of the record is that its
counts can be written, and that it has a header if it is that of a semantic
(`History.Fits`). So there is one string of octets for each record, and nothing else is
accepted (`decodeStamps_eq_ok_iff`, `History.decode_eq_ok_iff`). Either format is one-to-one
(`encodeStamps_decodeStamps_bijective`, `History.encode_decode_bijective`).
-/

namespace Bitemporal

/-! ## Tags -/

theorem tag_of_find? {α : Type} {tag : α → UInt8} {all : List α} {t : UInt8} {a : α}
    (h : (all.find? fun b => tag b = t) = some a) : t = tag a := by
  have htag := List.find?_some h
  exact (of_decide_eq_true htag).symm

theorem Kind.ofTag?_eq_some_iff {t : UInt8} {k : Kind} : ofTag? t = some k ↔ t = k.tag :=
  ⟨tag_of_find?, fun h => h ▸ ofTag?_tag k⟩

theorem Status.ofTag?_eq_some_iff {t : UInt8} {s : Status} : ofTag? t = some s ↔ t = s.tag :=
  ⟨tag_of_find?, fun h => h ▸ ofTag?_tag s⟩

theorem FieldType.ofTag?_eq_some_iff {t : UInt8} {f : FieldType} :
    ofTag? t = some f ↔ t = f.tag :=
  ⟨tag_of_find?, fun h => h ▸ ofTag?_tag f⟩

namespace Record

open Reader (Reads)

theorem reads_tag {α : Type} {ofTag? : UInt8 → Option α} {tag : α → UInt8} (choice : Choice)
    (h : ∀ t a, ofTag? t = some a ↔ t = tag a) :
    Reads (readTag choice ofTag?) fun a octets => octets = [tag a] := by
  refine (Reads.octet.interpret? (g := ofTag?) (fun h => by simp only [h])
    fun h => ⟨_, by simp only [h]; rfl⟩).congr fun a octets => ?_
  simp [h]

/-! ## Parts -/

theorem reads_nid : Reads readNid fun n octets => octets = LittleEndian.ofInt32 n.val := by
  refine (Reads.int32.map Nid.mk).congr fun n octets => ?_
  constructor
  · rintro ⟨val, rfl, rfl⟩
    rfl
  · rintro rfl
    exact ⟨n.val, rfl, rfl⟩

theorem reads_uuid : Reads readUuid fun uuid octets => octets = uuid.octets :=
  .uuid (fun h => by simp only [h]) fun h => ⟨_, by simp only [h]; rfl⟩

theorem reads_stampRow : Reads StampRow.read fun row octets => octets = row.encode := by
  refine (Reads.uint32.bind fun seq => (reads_tag .status fun _ _ => Status.ofTag?_eq_some_iff).bind
    fun status => Reads.int64.bind fun millis => reads_nid.bind fun author => reads_nid.bind
    fun module => reads_nid.bind fun path => .pure _).congr fun row octets => ?_
  constructor
  · rintro ⟨seq, _, _, rfl, ⟨status, _, _, rfl, ⟨millis, _, _, rfl, ⟨author, _, _, rfl,
      ⟨module, _, _, rfl, ⟨path, _, _, rfl, ⟨rfl, rfl⟩, rfl⟩, rfl⟩, rfl⟩, rfl⟩, rfl⟩, rfl⟩
    simp [StampRow.encode]
  · rintro rfl
    exact ⟨row.seq.val, _, _, rfl, ⟨row.stamp.status, _, _, rfl, ⟨row.stamp.time.millis, _, _, rfl,
      ⟨row.stamp.author, _, _, rfl, ⟨row.stamp.module, _, _, rfl, ⟨row.stamp.path, _, _, rfl,
      ⟨rfl, rfl⟩, rfl⟩, rfl⟩, rfl⟩, rfl⟩, rfl⟩, by simp [StampRow.encode]⟩

theorem reads_stamps : Reads readStamps fun rows octets =>
    rows.length < UInt32.size ∧
      octets = LittleEndian.octets 4 rows.length ++ rows.flatMap StampRow.encode :=
  (Reads.counted32 reads_stampRow.always.times).congr fun rows octets => by simp

theorem reads_versionRow : Reads VersionRow.read fun row octets =>
    row.payload.length < UInt32.size ∧ octets = row.encode := by
  have hpayload := Reads.counted32 (Reads.take (ε := Fault))
  refine (Reads.uint32.bind fun seq => .assoc (hpayload.bind fun payload => .pure _)).congr
    fun row octets => ?_
  constructor
  · rintro ⟨seq, _, _, rfl, ⟨payload, _, _, ⟨hlt, _, rfl, rfl⟩, ⟨rfl, rfl⟩, rfl⟩, rfl⟩
    exact ⟨hlt, by simp [VersionRow.encode]⟩
  · rintro ⟨hlt, rfl⟩
    refine ⟨row.seq.val, _, _, rfl, ⟨row.payload, _, _, ⟨hlt, _, rfl, rfl⟩, ⟨rfl, rfl⟩, rfl⟩, ?_⟩
    simp [VersionRow.encode]

theorem reads_header : Reads SemanticHeader.read fun header octets =>
    header.fields.length < UInt16.size ∧ octets = header.encode := by
  have htag := reads_tag .fieldType fun _ _ => FieldType.ofTag?_eq_some_iff
  refine (reads_nid.bind fun assemblage => reads_nid.bind fun referenced =>
    .assoc ((Reads.counted16 htag.always.times).bind fun fields => .pure _)).congr
    fun header octets => ?_
  constructor
  · rintro ⟨assemblage, _, _, rfl, ⟨referenced, _, _, rfl, ⟨fields, _, _,
      ⟨hlt, _, ⟨-, rfl⟩, rfl⟩, ⟨rfl, rfl⟩, rfl⟩, rfl⟩, rfl⟩
    exact ⟨hlt, by simp [SemanticHeader.encode, List.map_eq_flatMap]⟩
  · rintro ⟨hlt, rfl⟩
    refine ⟨header.assemblage, _, _, rfl, ⟨header.referenced, _, _, rfl, ⟨header.fields, _, _,
      ⟨hlt, _, ⟨fun _ _ => trivial, rfl⟩, rfl⟩, ⟨rfl, rfl⟩, rfl⟩, rfl⟩, ?_⟩
    simp [SemanticHeader.encode, List.map_eq_flatMap]

/-! ## Records -/

/-- Rows that can be counted are what is read of a record of stamps. -/
theorem decodeStamps_eq_ok_iff {rows : List StampRow} {octets : List UInt8} :
    decodeStamps octets = .ok rows ↔ rows.length < UInt32.size ∧ octets = encodeStamps rows := by
  refine (unwrap_eq_ok_iff rfl reads_stamps).trans ?_
  constructor
  · rintro ⟨_, ⟨hlt, rfl⟩, rfl⟩
    exact ⟨hlt, rfl⟩
  · rintro ⟨hlt, rfl⟩
    exact ⟨_, ⟨hlt, rfl⟩, rfl⟩

theorem StampRow.length_encode (row : StampRow) : row.encode.length = 25 := by
  simp [encode, LittleEndian.ofUInt32, LittleEndian.ofInt32, LittleEndian.ofInt64]

theorem length_encodeStamps (rows : List StampRow) :
    (encodeStamps rows).length = 14 + 25 * rows.length := by
  have hrows : (rows.flatMap StampRow.encode).length = 25 * rows.length := by
    induction rows with
    | nil => rfl
    | cons row rows ih =>
      rw [List.flatMap_cons, List.length_append, row.length_encode, ih, List.length_cons]
      omega
  simp [encodeStamps, wrap_eq, contents, hrows, LittleEndian.length_ofUInt16,
    LittleEndian.length_ofUInt32, stampsMagic]
  omega

/-- Only as many rows are read as can be counted, and they are those that were written. -/
theorem decode_encodeStamps {rows rows' : List StampRow}
    (h : decodeStamps (encodeStamps rows) = .ok rows') :
    rows' = rows ∧ rows.length < UInt32.size := by
  obtain ⟨hlt, heq⟩ := decodeStamps_eq_ok_iff.1 h
  -- more rows would not have been written to so few octets
  have hlength : rows.length = rows'.length := by
    have hoctets := congrArg List.length heq
    rw [length_encodeStamps, length_encodeStamps] at hoctets
    omega
  rw [← hlength] at hlt
  exact ⟨Except.ok.inj (h.symm.trans (decodeStamps_eq_ok_iff.2 ⟨hlt, rfl⟩)), hlt⟩

/-- The format of stamps is one-to-one between the lists of rows that can be counted and the
    octets that are read at all: what is written of such rows is read back as those rows, and
    octets from which rows are read are the ones that are written of them. Each row takes 25
    octets, and the last four are the checksum of all before. -/
theorem encodeStamps_decodeStamps_bijective :
    (∀ rows : List StampRow, rows.length < UInt32.size →
      decodeStamps (encodeStamps rows) = .ok rows) ∧
    (∀ rows : List StampRow, (encodeStamps rows).length = 14 + 25 * rows.length ∧
      ∃ before, encodeStamps rows = before ++ LittleEndian.ofUInt32 (Checksum.ofOctets before)) ∧
    ∀ (octets : List UInt8) (rows : List StampRow), decodeStamps octets = .ok rows →
      rows.length < UInt32.size ∧ encodeStamps rows = octets := by
  refine ⟨fun rows hlt => decodeStamps_eq_ok_iff.2 ⟨hlt, rfl⟩, fun rows => ?_,
    fun octets rows hd => ?_⟩
  · exact ⟨length_encodeStamps rows, _, wrap_eq ..⟩
  · obtain ⟨hlt, rfl⟩ := decodeStamps_eq_ok_iff.1 hd
    exact ⟨hlt, rfl⟩

/-- Two rows that no table would hold: they have one number, and the second has no time. -/
def sampleRows : List StampRow :=
  [⟨⟨7⟩, { status := .cancelled, time := .earliest, author := ⟨-1⟩, module := ⟨2⟩, path := ⟨-9⟩ }⟩,
    ⟨⟨7⟩, { status := .active, time := .uncommitted, author := ⟨1⟩, module := ⟨1⟩, path := ⟨1⟩ }⟩]

theorem encodeStamps_decodeStamps_bijective_at_sampleRows :
    sampleRows.length < UInt32.size ∧ decodeStamps (encodeStamps sampleRows) = .ok sampleRows ∧
      (encodeStamps sampleRows).length = 64 ∧
      ∀ octets, decodeStamps octets = .ok sampleRows → encodeStamps sampleRows = octets := by
  obtain ⟨hread, hwritten, honly⟩ := encodeStamps_decodeStamps_bijective
  have hlt : sampleRows.length < UInt32.size := by decide
  exact ⟨hlt, hread _ hlt, (hwritten sampleRows).1, fun octets hd => (honly _ _ hd).2⟩

namespace History

/-- The counts of a record can be written, and it has a header just if it is that of a
    semantic. -/
structure Fits (r : History) : Prop where
  uuids : r.uuids.length < UInt16.size
  semantic : r.kind = .semantic ↔ r.semantic.isSome
  fields : ∀ header ∈ r.semantic, header.fields.length < UInt16.size
  versions : r.versions.length < UInt32.size
  payloads : ∀ row ∈ r.versions, row.payload.length < UInt32.size

theorem reads_header (kind : Kind) : Reads (readHeader kind) fun semantic octets =>
    (kind = .semantic ↔ semantic.isSome) ∧
      (∀ header ∈ semantic, header.fields.length < UInt16.size) ∧
      octets = semantic.elim [] SemanticHeader.encode := by
  cases kind with
  | concept =>
    refine (Reads.pure none).congr fun semantic octets => ?_
    cases semantic <;> simp
  | semantic =>
    refine (Record.reads_header.map some).congr fun semantic octets => ?_
    cases semantic <;> simp

theorem reads : Reads read fun r octets => r.Fits ∧ octets = r.body := by
  refine (reads_nid.bind fun nid => (reads_tag .kind fun _ _ => Kind.ofTag?_eq_some_iff).bind
    fun kind => .assoc ((Reads.counted16 reads_uuid.always.times).bind fun uuids =>
    (reads_header kind).bind fun semantic =>
    .assoc ((Reads.counted32 reads_versionRow.times).bind fun versions => .pure _))).congr
    fun r octets => ?_
  constructor
  · rintro ⟨nid, _, _, rfl, ⟨kind, _, _, rfl, ⟨uuids, _, _, ⟨huuids, _, ⟨-, rfl⟩, rfl⟩,
      ⟨semantic, _, _, ⟨hsemantic, hfields, rfl⟩, ⟨versions, _, _,
      ⟨hversions, _, ⟨hpayloads, rfl⟩, rfl⟩, ⟨rfl, rfl⟩, rfl⟩, rfl⟩, rfl⟩, rfl⟩, rfl⟩
    exact ⟨⟨huuids, hsemantic, hfields, hversions, hpayloads⟩, by simp [body]⟩
  · rintro ⟨hfits, rfl⟩
    refine ⟨r.nid, _, _, rfl, ⟨r.kind, _, _, rfl, ⟨r.uuids, _, _,
      ⟨hfits.uuids, _, ⟨fun _ _ => trivial, rfl⟩, rfl⟩, ⟨r.semantic, _, _,
      ⟨hfits.semantic, hfits.fields, rfl⟩, ⟨r.versions, _, _,
      ⟨hfits.versions, _, ⟨hfits.payloads, rfl⟩, rfl⟩, ⟨rfl, rfl⟩, rfl⟩, rfl⟩, rfl⟩, rfl⟩, ?_⟩
    simp [body]

/-- A record that can be written is what is read of its octets, and of no others. -/
theorem decode_eq_ok_iff {r : History} {octets : List UInt8} :
    decode octets = .ok r ↔ r.Fits ∧ octets = r.encode := by
  refine (unwrap_eq_ok_iff rfl reads).trans ?_
  constructor
  · rintro ⟨_, ⟨hfits, rfl⟩, rfl⟩
    exact ⟨hfits, rfl⟩
  · rintro ⟨hfits, rfl⟩
    exact ⟨_, ⟨hfits, rfl⟩, rfl⟩

/-- The format of records is one-to-one: what is written of a record that fits is read back
    as that record, and octets that are read at all are the ones, and the only ones, that
    are written of the record that was read. -/
theorem encode_decode_bijective :
    (∀ r : History, r.Fits → decode r.encode = .ok r) ∧
    ∀ (octets : List UInt8) (r : History), decode octets = .ok r →
      r.Fits ∧ r.encode = octets ∧ ∀ other, decode other = .ok r → other = octets := by
  refine ⟨fun r hfits => decode_eq_ok_iff.2 ⟨hfits, rfl⟩, fun octets r hd => ?_⟩
  obtain ⟨hfits, rfl⟩ := decode_eq_ok_iff.1 hd
  exact ⟨hfits, rfl, fun other hother => (decode_eq_ok_iff.1 hother).2⟩

/-- A semantic with two identifiers and two versions, of which the second is empty. -/
def sample : History where
  nid := ⟨2⟩
  kind := .semantic
  uuids := [⟨List.replicate 16 5, List.length_replicate⟩,
    ⟨List.replicate 16 6, List.length_replicate⟩]
  semantic := some { assemblage := ⟨1⟩, referenced := ⟨-5⟩, fields := [.nid, .string] }
  versions := [⟨⟨1⟩, [1, 0, 7, 0, 0, 0]⟩, ⟨⟨4⟩, []⟩]

theorem encode_decode_bijective_at_sample :
    sample.Fits ∧ decode sample.encode = .ok sample ∧
      ∀ other, decode other = .ok sample → other = sample.encode := by
  have hfits : sample.Fits := by
    refine ⟨by decide, iff_of_true rfl rfl, ?_, by decide, by decide⟩
    rintro _ ⟨⟩
    decide
  have hd := encode_decode_bijective.1 sample hfits
  exact ⟨hfits, hd, (encode_decode_bijective.2 _ _ hd).2.2⟩

end History

end Record

end Bitemporal
