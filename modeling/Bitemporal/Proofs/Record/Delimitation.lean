import Bitemporal.Proofs.Bytes.Extension
import Bitemporal.Proofs.Record.Corruption

/-!
# Records that end where they should not

Of octets that are a record, no proper part from the beginning is a record, nor is anything
longer that begins with them (`affix_refused`). The checksum has no part in this: it is
among the octets that are cut off or moved, and what stands in its place may happen to fit.
If it fits, the octets are still `Sealed`, and all depends on the body
(`unwrap_of_sealed`). The body of a record that was cut off is a proper part of the body
that was there, and that of a record that was padded begins with it. The readers of both
formats are steady (`steady_readStamps`, `History.steady_read`). So the former ends too
early, and of the latter there is more than is read, by as many octets as were added.
-/

namespace Bitemporal.Record

open Reader (Reads Steady)

variable {α : Type} {magic octets body : List UInt8} {read : Reader Fault α}
  {F : α → List UInt8 → Prop} {a : α}

/-! ### Steady readers -/

/-- The fault of records that end early. -/
def TooShort (fault : Fault) : Prop :=
  fault = .tooShort

theorem tooShort_endOfInput : TooShort EndOfInput.endOfInput := rfl

theorem steady_tag {β : Type} (choice : Choice) (ofTag? : UInt8 → Option β) :
    Steady TooShort (readTag choice ofTag?) := by
  refine (Steady.octet tooShort_endOfInput).bind fun tag => ?_
  split
  · exact .pure _
  · exact .throw _

theorem steady_word : Steady TooShort (Reader.uint32 : Reader Fault UInt32) :=
  .uint32 tooShort_endOfInput

theorem steady_nid : Steady TooShort readNid :=
  (Steady.int32 tooShort_endOfInput).map Nid.mk

theorem steady_stampRow : Steady TooShort StampRow.read :=
  steady_word.bind fun _ => (steady_tag _ _).bind fun _ =>
    (Steady.int64 tooShort_endOfInput).bind fun _ => steady_nid.bind fun _ =>
      steady_nid.bind fun _ => steady_nid.map _

theorem steady_readStamps : Steady TooShort readStamps :=
  steady_word.bind fun _ => steady_stampRow.times _

theorem steady_uuid : Steady TooShort readUuid := by
  refine (Steady.take tooShort_endOfInput 16).bind fun l => ?_
  split
  · exact .pure _
  · exact .throw _

theorem steady_header : Steady TooShort SemanticHeader.read :=
  steady_nid.bind fun _ => steady_nid.bind fun _ => (Steady.uint16 tooShort_endOfInput).bind
    fun _ => ((steady_tag _ _).times _).map _

theorem steady_versionRow : Steady TooShort VersionRow.read :=
  steady_word.bind fun _ => steady_word.bind fun _ => (Steady.take tooShort_endOfInput _).map _

theorem History.steady_header (kind : Kind) : Steady TooShort (readHeader kind) := by
  cases kind with
  | concept => exact .pure none
  | semantic => exact Record.steady_header.map some

theorem History.steady_read : Steady TooShort History.read :=
  steady_nid.bind fun _ => (steady_tag _ _).bind fun _ =>
    (Steady.uint16 tooShort_endOfInput).bind fun _ => (steady_uuid.times _).bind fun _ =>
      (History.steady_header _).bind fun _ => steady_word.bind fun _ =>
        (steady_versionRow.times _).map _

/-! ### Bodies -/

/-- What a reader makes of a body that it has to read to the end. -/
def readBody (read : Reader Fault α) (body : List UInt8) : Except Fault α :=
  read ⟨6, body⟩ >>= fun (a, c) =>
    if c.rest.isEmpty then .ok a else .error (.trailing c.rest.length)

/-- What stands between the version of the format and the checksum. -/
def bodyOf (octets : List UInt8) : List UInt8 :=
  (octets.drop 6).take (octets.length - 10)

/-- Of octets that are a record but for their body, all depends on the body. -/
theorem unwrap_of_sealed (h : Sealed magic octets)
    (hversion : (octets.drop 4).take 2 = LittleEndian.ofUInt16 formatVersion) :
    unwrap magic read octets = readBody read (bodyOf octets) := by
  have hlength := h.length
  have hrest : (octets.take (octets.length - 4)).drop 4 =
      LittleEndian.ofUInt16 formatVersion ++ bodyOf octets := by
    rw [List.drop_take, ← List.take_append_drop 2 ((octets.drop 4).take _), List.take_take,
      Nat.min_eq_left (by omega), hversion, List.drop_take, List.drop_drop, bodyOf]
    rfl
  have hread : (Reader.uint16 : Reader Fault UInt16) ⟨4, (octets.take (octets.length - 4)).drop 4⟩ =
      .ok (formatVersion, ⟨6, bodyOf octets⟩) :=
    (Reads.uint16 ..).2 ⟨_, rfl, hrest, rfl⟩
  have hsum : UInt32.ofNat (LittleEndian.value (octets.drop (octets.length - 4))) =
      Checksum.ofOctets (octets.take (octets.length - 4)) := h.checksum
  rw [unwrap, if_neg (Nat.not_lt.2 hlength), if_neg (not_not.2 h.mark)]
  dsimp only
  rw [if_neg (not_not.2 hsum), hread]
  dsimp only
  rw [if_neg (not_not.2 rfl), readBody]
  cases read ⟨6, bodyOf octets⟩ <;> rfl

theorem readBody_take (h : Steady TooShort read)
    (hread : read ⟨6, body⟩ = .ok (a, ⟨6 + body.length, []⟩)) {n : Nat} (hn : n < body.length) :
    readBody read (body.take n) = .error .tooShort := by
  obtain ⟨_, rfl, hcut⟩ := h.cut hread rfl hn
  rw [readBody, hcut]
  rfl

theorem readBody_append (h : Steady TooShort read)
    (hread : read ⟨6, body⟩ = .ok (a, ⟨6 + body.length, []⟩)) {more : List UInt8}
    (hmore : more ≠ []) : readBody read (body ++ more) = .error (.trailing more.length) := by
  rw [readBody, h.pad hread rfl more]
  exact if_neg (mt List.isEmpty_iff.1 hmore)

/-! ### Shorter and longer records -/

/-- The octets are refused for their checksum, or, if it fits, for another fault. -/
def RefusedFor (fault : Fault) (decode : List UInt8 → Except Fault α) (octets : List UInt8) :
    Prop :=
  decode octets = .error fault ∨ stated octets ≠ computed octets ∧
    decode octets = .error (.wrongChecksum (stated octets) (computed octets))

/-- Octets mark their own end: they are refused if any of them are missing at the end, and if
    there are any more, and this for the octets that are missing or are too many if the
    checksum fits what is left. -/
structure Delimited (decode : List UInt8 → Except Fault α) (octets : List UInt8) : Prop where
  cut : ∀ n < octets.length, RefusedFor .tooShort decode (octets.take n)
  padded : ∀ more ≠ [], RefusedFor (.trailing more.length) decode (octets ++ more)

theorem RefusedFor.ne_ok {fault : Fault} {decode : List UInt8 → Except Fault α}
    (h : RefusedFor fault decode octets) : decode octets ≠ .ok a := by
  intro hok
  obtain h | ⟨-, h⟩ := h
  · cases h.symm.trans hok
  · cases h.symm.trans hok

/-- Octets of which the mark and the version are right are refused for what becomes of their
    body, unless their checksum is wrong. -/
theorem refusedFor_of_body {fault : Fault} (hlength : 10 ≤ octets.length)
    (hmark : octets.take 4 = magic)
    (hversion : (octets.drop 4).take 2 = LittleEndian.ofUInt16 formatVersion)
    (hbody : readBody read (bodyOf octets) = .error fault) :
    RefusedFor fault (unwrap magic read) octets := by
  by_cases hsum : stated octets = computed octets
  · exact .inl ((unwrap_of_sealed ⟨hlength, hmark, hsum⟩ hversion).trans hbody)
  · exact .inr ⟨hsum, unwrap_eq_wrongChecksum hlength hmark hsum⟩

/-- The parts of a record with a body: its mark, its version, the body, and four octets more. -/
structure Parts (magic body sum octets : List UInt8) : Prop where
  mark : octets.take 4 = magic
  rest : octets.drop 4 = LittleEndian.ofUInt16 formatVersion ++ (body ++ sum)
  length : octets.length = 10 + body.length
  length_sum : sum.length = 4

theorem parts_wrap (hmagic : magic.length = 4) : ∃ sum, Parts magic body sum (wrap magic body) := by
  have hsum := LittleEndian.length_ofUInt32 (Checksum.ofOctets (contents magic body))
  have hversion := LittleEndian.length_ofUInt16 formatVersion
  have hwrap : wrap magic body = magic ++ (LittleEndian.ofUInt16 formatVersion ++
      (body ++ LittleEndian.ofUInt32 (Checksum.ofOctets (contents magic body)))) := by
    rw [wrap_eq, contents, List.append_assoc, List.append_assoc]
  refine ⟨_, ?_, ?_, ?_, hsum⟩
  · rw [hwrap, List.take_left' hmagic]
  · rw [hwrap, List.drop_left' hmagic]
  · simp only [hwrap, List.length_append, hmagic, hversion, hsum]
    omega

theorem Parts.drop {sum : List UInt8} (h : Parts magic body sum octets) :
    octets.drop 6 = body ++ sum := by
  have hversion := LittleEndian.length_ofUInt16 formatVersion
  rw [← List.drop_drop (i := 2) (j := 4), h.rest, List.drop_left' hversion]

/-- Of what is left of a record, the body is a part of the body that was there. -/
theorem Parts.refusedFor_take {sum : List UInt8} (h : Parts magic body sum octets)
    (hsteady : Steady TooShort read) (hread : read ⟨6, body⟩ = .ok (a, ⟨6 + body.length, []⟩))
    {n : Nat} (hn : n < octets.length) :
    RefusedFor .tooShort (unwrap magic read) (octets.take n) := by
  have hlength := h.length
  have hcut : (octets.take n).length = n := by
    rw [List.length_take, Nat.min_eq_left (Nat.le_of_lt hn)]
  by_cases hshort : n < 10
  · exact .inl (if_pos (by rwa [hcut]))
  refine refusedFor_of_body (by omega) ?_ ?_ ?_
  · rw [List.take_take, Nat.min_eq_left (by omega), h.mark]
  · rw [List.drop_take, h.rest, List.take_take, Nat.min_eq_left (by omega),
      List.take_left' (LittleEndian.length_ofUInt16 _)]
  · have hpart : bodyOf (octets.take n) = body.take (n - 10) := by
      rw [bodyOf, hcut, List.drop_take, h.drop, List.take_take, Nat.min_eq_left (by omega),
        List.take_append_of_le_length (by omega)]
    rw [hpart]
    exact readBody_take hsteady hread (by omega)

/-- The body of a record that was padded is the body that was there, with the checksum and
    the octets after it at the end, but for the last four of them. -/
theorem Parts.refusedFor_append {sum : List UInt8} (h : Parts magic body sum octets)
    (hsteady : Steady TooShort read) (hread : read ⟨6, body⟩ = .ok (a, ⟨6 + body.length, []⟩))
    {more : List UInt8} (hmore : more ≠ []) :
    RefusedFor (.trailing more.length) (unwrap magic read) (octets ++ more) := by
  have hlength := h.length
  have hpadded : (octets ++ more).length = 10 + (body.length + more.length) := by
    rw [List.length_append, hlength, Nat.add_assoc]
  have hextra : ((sum ++ more).take more.length).length = more.length := by
    rw [List.length_take, List.length_append]
    omega
  refine refusedFor_of_body (by omega) ?_ ?_ ?_
  · rw [List.take_append_of_le_length (by omega), h.mark]
  · rw [List.drop_append_of_le_length (by omega), h.rest, List.append_assoc,
      List.take_left' (LittleEndian.length_ofUInt16 _)]
  · have hmoved : bodyOf (octets ++ more) = body ++ (sum ++ more).take more.length := by
      rw [bodyOf, hpadded, List.drop_append_of_le_length (by omega), h.drop,
        Nat.add_sub_cancel_left, List.append_assoc, List.take_length_add_append]
    rw [hmoved, readBody_append hsteady hread, hextra]
    exact List.ne_nil_of_length_pos (by rwa [hextra, List.length_pos_iff])

theorem delimited_of_unwrap (hmagic : magic.length = 4) (hreads : Reads read F)
    (hsteady : Steady TooShort read) (h : unwrap magic read octets = .ok a) :
    Delimited (unwrap magic read) octets := by
  obtain ⟨body, hF, rfl⟩ := (unwrap_eq_ok_iff hmagic hreads).1 h
  have hread : read ⟨6, body⟩ = .ok (a, ⟨6 + body.length, []⟩) :=
    (hreads ..).2 ⟨body, hF, (List.append_nil body).symm, rfl⟩
  obtain ⟨sum, hparts⟩ := parts_wrap hmagic
  exact ⟨fun n => hparts.refusedFor_take hsteady hread,
    fun more => hparts.refusedFor_append hsteady hread⟩

/-- No other octets that are read begin with those, or are the beginning of them. -/
theorem Delimited.eq_of_prefix {decode : List UInt8 → Except Fault α} {other : List UInt8}
    (h : Delimited decode octets) (hother : decode other = .ok a)
    (hbegins : other <+: octets ∨ octets <+: other) : other = octets := by
  obtain hbegins | ⟨more, rfl⟩ := hbegins
  · rw [List.prefix_iff_eq_take.1 hbegins] at hother
    by_contra hne
    refine (h.cut other.length ?_).ne_ok hother
    exact Nat.lt_of_le_of_ne hbegins.length_le (mt hbegins.eq_of_length hne)
  · by_contra hne
    exact (h.padded more fun hmore => hne (by rw [hmore, List.append_nil])).ne_ok hother

/-- Octets that are read, as stamps or as a component, are refused when any of them are cut off
    at the end, as too short, and when any are added, as that many too many; only that the
    checksum, which is looked at before, may be wrong already. So no octets that are read in
    a format are the beginning of others that are. -/
theorem affix_refused (octets : List UInt8) :
    (∀ rows, decodeStamps octets = .ok rows → Delimited decodeStamps octets ∧
      ∀ other rows', decodeStamps other = .ok rows' → other <+: octets ∨ octets <+: other →
        other = octets) ∧
    ∀ r, History.decode octets = .ok r → Delimited History.decode octets ∧
      ∀ other r', History.decode other = .ok r' → other <+: octets ∨ octets <+: other →
        other = octets := by
  refine ⟨fun rows h => ?_, fun r h => ?_⟩
  · have hdelimited : Delimited decodeStamps octets :=
      delimited_of_unwrap rfl reads_stamps steady_readStamps h
    exact ⟨hdelimited, fun other rows' => hdelimited.eq_of_prefix⟩
  · have hdelimited : Delimited History.decode octets :=
      delimited_of_unwrap rfl History.reads History.steady_read h
    exact ⟨hdelimited, fun other r' => hdelimited.eq_of_prefix⟩

/-- Contents are sealed by their checksum, whatever body they have. -/
theorem sealed_append_checksum {contents : List UInt8} (hlength : 6 ≤ contents.length)
    (hmark : contents.take 4 = magic) :
    Sealed magic (contents ++ LittleEndian.ofUInt32 (Checksum.ofOctets contents)) := by
  have hfour : (contents ++ LittleEndian.ofUInt32 (Checksum.ofOctets contents)).length - 4 =
      contents.length := by
    rw [List.length_append, LittleEndian.length_ofUInt32, Nat.add_sub_cancel]
  refine ⟨?_, ?_, ?_⟩
  · rw [List.length_append, LittleEndian.length_ofUInt32]
    omega
  · rw [List.take_append_of_le_length (by omega), hmark]
  · rw [stated, computed, hfour, List.drop_left, List.take_left,
      LittleEndian.ofNat_value_ofUInt32]

/-- What stands before the payload in the record of a concept with one version of four octets. -/
def beforePayload : List UInt8 :=
  contents historyMagic [1, 0, 0, 0, 1, 0, 0, 1, 0, 0, 0, 7, 0, 0, 0, 4, 0, 0, 0]

/-- A record of which a part is sealed: its payload is the checksum of all before it. -/
def nested : History where
  nid := ⟨1⟩
  kind := .concept
  uuids := []
  semantic := none
  versions := [⟨⟨7⟩, LittleEndian.ofUInt32 (Checksum.ofOctets beforePayload)⟩]

theorem sealed_take_nested : Sealed historyMagic (nested.encode.take 29) := by
  have htake : nested.encode.take 29 =
      beforePayload ++ LittleEndian.ofUInt32 (Checksum.ofOctets beforePayload) := rfl
  rw [htake]
  exact sealed_append_checksum (by decide) rfl

/-- The checksum fits in either case, of a record that was cut off and of one that its own
    checksum was added to, and still they are refused. -/
theorem affix_refused_although_sealed :
    Sealed historyMagic (nested.encode.take 29) ∧
      History.decode (nested.encode.take 29) = .error .tooShort ∧
      let padded := encodeStamps sampleRows ++
        LittleEndian.ofUInt32 (Checksum.ofOctets (encodeStamps sampleRows))
      Sealed stampsMagic padded ∧ decodeStamps padded = .error (.trailing 4) := by
  have hnested : History.decode nested.encode = .ok nested := by
    refine History.decode_eq_ok_iff.2 ⟨?_, rfl⟩
    exact ⟨by decide, by decide, nofun, by decide, List.forall_mem_singleton.2 (by decide)⟩
  have hrows : decodeStamps (encodeStamps sampleRows) = .ok sampleRows :=
    decodeStamps_eq_ok_iff.2 ⟨by decide, rfl⟩
  have hcut := ((affix_refused nested.encode).2 nested hnested).1.cut 29 (by decide)
  have hpadded := ((affix_refused (encodeStamps sampleRows)).1 sampleRows hrows).1.padded
    (LittleEndian.ofUInt32 (Checksum.ofOctets (encodeStamps sampleRows))) nofun
  have hsealed : Sealed stampsMagic (encodeStamps sampleRows ++
      LittleEndian.ofUInt32 (Checksum.ofOctets (encodeStamps sampleRows))) :=
    sealed_append_checksum (by decide) rfl
  exact ⟨sealed_take_nested, hcut.resolve_right fun h => h.1 sealed_take_nested.checksum,
    hsealed, hpadded.resolve_right fun h => h.1 hsealed.checksum⟩

end Bitemporal.Record
