import Bitemporal.Store

/-!
# Appending versions

A version whose stamp has a time is committed when it is appended; one whose
stamp has none becomes a draft, whose fields can be replaced until it is
committed at a time of its own. Either way the stamp is interned, the version
comes to stand at the end of the history, and its fields are filed.
-/

namespace Bitemporal.Store

/-- What a version of a component carries that is given the values: nothing for
    a concept, and for a semantic the tuple that fits the schema of its
    assemblage. -/
def payloadFor (s : Store) (h : History) (values : List FieldValue) : Except Error Payload :=
  match h.shape with
  | .concept =>
    if values.isEmpty then .ok .bare else .error (.arityMismatch 0 values.length)
  | .semantic assemblage _ => do
    let schema ← s.schema assemblage
    return .fields (← FieldTuple.ofValues schema values)

/-- Files a version that was committed, if its fields hold component numbers. -/
def fileCommitted (nid : Nid) (v : Version) : Action Unit :=
  modify fun s => { s with index := s.index.fileVersion nid v }

/-- Appends a version to a component. -/
def append (nid : Nid) (stamp : Stamp) (values : List FieldValue) : Action Handle := do
  let h ← (← get).history nid
  let payload ← (← get).payloadFor h values
  if stamp.isUncommitted then
    let (slot, h) := h.appendDraft { stamp, payload }
    putHistory nid h
    return { nid, slot }
  else
    -- the order is looked at before the stamp is interned, so that a refusal leaves no stamp
    h.checkOrder stamp.time
    let seq ← intern stamp
    let version : Version := { stamp, seq, payload }
    let (slot, h) ← h.appendCommitted version
    putHistory nid h
    fileCommitted nid version
    return { nid, slot }

/-- Gives a draft other values. -/
def updateDraft (handle : Handle) (values : List FieldValue) : Action Unit := do
  let h ← (← get).history handle.nid
  let payload ← (← get).payloadFor h values
  let h ← h.replacePayload handle.slot payload
  putHistory handle.nid h

/-- Commits a draft at a time. -/
def commit (handle : Handle) (time : Timestamp) : Action StampSeq := do
  if time.isUncommitted then throw .uncommittedStamp
  let h ← (← get).history handle.nid
  let draft ← h.checkCommit handle.slot time
  let stamp := draft.stamp.withTime time
  let seq ← intern stamp
  let (version, h) ← h.commitDraft handle.slot stamp seq
  putHistory handle.nid h
  fileCommitted handle.nid version
  return seq

end Bitemporal.Store
