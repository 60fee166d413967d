import Bitemporal.Bytes.Utf8
import Bitemporal.Component
import Bitemporal.Field
import Bitemporal.Record.Fault
import Bitemporal.Stamp
import Bitemporal.Viewpoint.Rule

/-!
# Errors

Every operation that can be refused says why by an `Error`. Its constructors are
the causes; the words for them are in `Error.message` alone.

Four causes come in many variants and have a type of their own: a coordinate
that makes no sense (`CoordinateFault`), stored octets that are damaged
(`Corruption`), an operation that would break what the store promises
(`Refusal`), and settings that cannot be used (`SettingsFault`). Each has a
variant `described` for a cause that is stated in words only.

*Structural* errors say that data or coordinates are malformed, *identity* errors
that something is not known under the name given.
-/

namespace Bitemporal

/-- Why the file system refuses an access. -/
inductive FileFault where
  | missing
  | occupied
  | notDirectory
  | isDirectory
  /-- A path or a name in it is too long. -/
  | tooLong
  /-- A path holds the character that ends texts for the system. -/
  | holdsNul
deriving DecidableEq, Repr

/-- The words for the refusal of an access, with its number if the system refuses it. -/
def FileFault.message : FileFault → String
  | .missing => "No such file or directory (os error 2)"
  | .occupied => "File exists (os error 17)"
  | .notDirectory => "Not a directory (os error 20)"
  | .isDirectory => "Is a directory (os error 21)"
  | .tooLong => "File name too long (os error 36)"
  | .holdsNul => "file name contained an unexpected NUL byte"

/-- Why a file cannot be read as text. -/
inductive TextFault where
  /-- It cannot be read at all. -/
  | inaccessible (fault : FileFault)
  /-- Its octets are not text. -/
  | notText
deriving DecidableEq, Repr

/-- The words for a failure to read a text. -/
def TextFault.message : TextFault → String
  | .inaccessible fault => fault.message
  | .notText => "stream did not contain valid UTF-8"

/-- Why a coordinate makes no sense. -/
inductive CoordinateFault where
  /-- A filter stands on no path. -/
  | unpositioned
  /-- A filter stands twice on one path. -/
  | positionedTwice (path : Nid)
  /-- A path originates from itself. -/
  | originCycle (path : Nid)
  /-- A cause stated in words. -/
  | described (text : String)
deriving DecidableEq, Repr

/-- The words for a fault of a coordinate. -/
def CoordinateFault.message : CoordinateFault → String
  | .unpositioned => "filter needs at least one path position"
  | .positionedTwice path => s!"{path} positioned twice"
  | .originCycle path => s!"path origin cycle through {path}"
  | .described text => text

/-- How stored octets are damaged. -/
inductive Corruption where
  /-- A field tuple ends early. -/
  | truncatedTuple
  /-- An octet stands for no truth value. -/
  | notBoolean (octet : UInt8)
  /-- A field announces more octets than there are. -/
  | fieldOverrun (length remaining : Nat)
  /-- The octets of a text are no text. -/
  | notText (fault : Utf8.Fault)
  /-- Octets follow a field tuple. -/
  | tupleTrailing (count : Nat)
  /-- A record cannot be read. -/
  | badRecord (fault : Record.Fault)
  /-- A record gives an interned number to another stamp. -/
  | stampConflict (seq : StampSeq) (held recorded : Stamp)
  /-- The rows of a record leave out a number. -/
  | stampGap (expected : Nat) (found : StampSeq)
  /-- The record of a component names no identifier. -/
  | noUuids (nid : Nid)
  /-- The kind of a record and its header disagree. -/
  | headerMismatch (nid : Nid) (kind : Kind)
  /-- The record of a concept carries fields. -/
  | conceptFields (nid : Nid)
  /-- A cause stated in words. -/
  | described (text : String)
deriving DecidableEq, Repr

/-- The words for damaged octets. -/
def Corruption.message : Corruption → String
  | .truncatedTuple => "truncated brittle field tuple: failed to fill whole buffer"
  | .notBoolean octet => s!"invalid boolean byte 0x{Hex.text 2 octet.toNat}"
  | .fieldOverrun length remaining => s!"field length {length} exceeds remaining {remaining} bytes"
  | .notText fault => s!"invalid UTF-8 in string field: {fault}"
  | .tupleTrailing count => s!"{count} trailing bytes after brittle field tuple"
  | .badRecord fault => fault.message
  | .stampConflict seq held recorded => s!"{seq} is bound to {held} but record says {recorded}"
  | .stampGap expected found => s!"stamp table gap: expected sequence {expected}, got {found}"
  | .noUuids nid => s!"{nid} has no uuids"
  | .headerMismatch nid kind => s!"{nid} record header does not match kind {kind}"
  | .conceptFields nid => s!"concept {nid} carries a field payload"
  | .described text => text

/-- Why an operation would break what the store promises. -/
inductive Refusal where
  /-- A tuple has more fields than its header can count. -/
  | tooManyFields (count : Nat)
  /-- A field has more octets than its length can say. -/
  | fieldTooLong (length : Nat)
  /-- A tuple has no field at a position. -/
  | noSuchField (position arity : Nat)
  /-- A component needs an identifier. -/
  | emptyUuidSet
  /-- Identifiers belong to two components. -/
  | uuidsSpan (first second : Nid)
  /-- A component is of another kind. -/
  | otherKind (nid : Nid) (registered wanted : Kind)
  /-- Identifiers to be restored belong to another component. -/
  | uuidsTaken (nid owner : Nid)
  /-- A number to be restored belongs to other identifiers. -/
  | nidTaken (nid : Nid)
  /-- A component is about something else. -/
  | otherShape (nid : Nid)
  /-- An assemblage has another schema. -/
  | otherSchema (assemblage : Nid)
  /-- A path or origin is no concept. -/
  | notConcept (nid : Nid)
  /-- A path has other origins. -/
  | otherOrigins (path : Nid)
  /-- A component to be imported is there already. -/
  | alreadyPresent (nid : Nid)
  /-- A closure was built over another assemblage. -/
  | foreignClosure (covered wanted : Nid)
  /-- A cause stated in words. -/
  | described (text : String)
deriving DecidableEq, Repr

/-- The words for a refusal. -/
def Refusal.message : Refusal → String
  | .tooManyFields count => s!"{count} fields exceed u16"
  | .fieldTooLong length => s!"field of {length} bytes exceeds u32"
  | .noSuchField position arity => s!"field {position} out of range for arity {arity}"
  | .emptyUuidSet => "cannot allocate a nid for an empty uuid set"
  | .uuidsSpan first second => s!"uuid set spans two components: {first} and {second}"
  | .otherKind nid registered wanted => s!"{nid} is a {registered}, not a {wanted}"
  | .uuidsTaken nid owner => s!"cannot restore {nid}: uuids already mapped to {owner}"
  | .nidTaken nid => s!"cannot restore {nid}: nid already carries other uuids"
  | .otherShape nid => s!"{nid} already exists with a different shape"
  | .otherSchema assemblage => s!"assemblage {assemblage} already declared with a different schema"
  | .notConcept nid => s!"{nid} is not a concept"
  | .otherOrigins path => s!"{path} already declared with different origins"
  | .alreadyPresent nid => s!"{nid} already present"
  | .foreignClosure covered wanted => s!"closure covers assemblage {covered}, not {wanted}"
  | .described text => text

/-- Why settings cannot be used. -/
inductive SettingsFault where
  /-- A tie-break rule appears twice. -/
  | repeatedTieBreak (rule : TieBreak)
  /-- A name stands for no tie-break rule. -/
  | unknownTieBreak (name : String)
  /-- A name stands for no contradiction policy. -/
  | unknownPolicy (name : String)
  /-- A text is not one of settings. -/
  | malformed
  /-- The text of a file is not one of settings. -/
  | malformedFile (path : String)
  /-- A file cannot be read. -/
  | unreadable (path : String) (fault : TextFault)
  /-- The default settings cannot be written. -/
  | defaultUnwritable (path : String) (fault : FileFault)
  /-- Settings cannot be written. -/
  | unwritable (path : String) (fault : FileFault)
  /-- A number is too large to be written. -/
  | unserializable
  /-- A cause stated in words. -/
  | described (text : String)
deriving DecidableEq, Repr

/-- The name of the file that holds the settings of a database. -/
def settingsFileName : String := "chronicle.toml"

/-- The words for a fault of settings. -/
def SettingsFault.message : SettingsFault → String
  | .repeatedTieBreak rule => s!"tie-break {rule} listed twice"
  | .unknownTieBreak name =>
    s!"Invalid tie-break '{name}' in {settingsFileName}. " ++
      "Expected \"path_specificity\" or \"module_priority\"."
  | .unknownPolicy name =>
    s!"Invalid contradiction policy '{name}' in {settingsFileName}. " ++
      "Expected \"include\" or \"exclude\"."
  | .malformed => "Failed to parse config"
  | .malformedFile path => s!"Failed to parse config file '{path}'"
  | .unreadable path fault => s!"Failed to read config file '{path}': {fault.message}"
  | .defaultUnwritable path fault =>
    s!"Failed to write default config file '{path}': {fault.message}"
  | .unwritable path fault => s!"Failed to write config file '{path}': {fault.message}"
  | .unserializable => "Failed to serialize config: out-of-range value for u64 type"
  | .described text => text

/-- Why an operation is refused. -/
inductive Error where
  /-- The file system refuses an access. -/
  | io (fault : FileFault)
  /-- No component has this number. -/
  | unknownIdentifier (nid : Nid)
  /-- No component has this identifier. -/
  | unknownUuid (uuid : Uuid)
  /-- A component has no such version slot. -/
  | unknownVersion (nid : Nid) (slot : UInt32)
  /-- No schema is declared for an assemblage. -/
  | unknownAssemblage (nid : Nid)
  /-- No stamp has this number. -/
  | unknownStampSeq (seq : StampSeq)
  /-- The number of fields is not the declared one. -/
  | arityMismatch (declared actual : Nat)
  /-- A field is not of its declared type. -/
  | fieldTypeMismatch (position : Nat) (expected actual : FieldType)
  /-- A coordinate makes no sense. -/
  | invalidCoordinate (fault : CoordinateFault)
  /-- Stored octets are damaged. -/
  | corruption (damage : Corruption)
  /-- A draft is committed already. -/
  | alreadyCommitted (nid : Nid) (seq : StampSeq)
  /-- A transitive question is asked without a closure. -/
  | unsupportedByAssemblage (nid : Nid)
  /-- The stamp of a draft cannot be interned. -/
  | uncommittedStamp
  /-- A commit would lie before the last one. -/
  | timeRegression (nid : Nid) (last attempted : Timestamp)
  /-- An operation would break what the store promises. -/
  | invalidOperation (refusal : Refusal)
  /-- Settings cannot be used. -/
  | settings (fault : SettingsFault)
deriving DecidableEq, Repr

namespace Error

/-- The words for an error. -/
def message : Error → String
  | .io fault => s!"I/O error: {fault.message}"
  | .unknownIdentifier nid => s!"Unknown identifier: {nid}"
  | .unknownUuid uuid => s!"Unknown UUID: {uuid}"
  | .unknownVersion nid slot => s!"Unknown version: draft {slot.toNat} of {nid}"
  | .unknownAssemblage nid => s!"Unknown assemblage: {nid}"
  | .unknownStampSeq seq => s!"Unknown stamp sequence: {seq}"
  | .arityMismatch declared actual => s!"Arity mismatch: declared {declared} fields, got {actual}"
  | .fieldTypeMismatch position expected actual =>
    s!"Field type mismatch at position {position}: expected {expected}, got {actual}"
  | .invalidCoordinate fault => s!"Invalid coordinate: {fault.message}"
  | .corruption damage => s!"Data corruption: {damage.message}"
  | .alreadyCommitted nid seq => s!"Version of {nid} already committed as {seq}"
  | .unsupportedByAssemblage nid =>
    s!"Unsupported by assemblage {nid}: no materialized closure index"
  | .uncommittedStamp => "Uncommitted stamps cannot be interned"
  | .timeRegression nid last attempted =>
    s!"Time regression on {nid}: last committed {last}, attempted {attempted}"
  | .invalidOperation refusal => s!"Invalid operation: {refusal.message}"
  | .settings fault => s!"Configuration error: {fault.message}"

instance : ToString Error := ⟨message⟩

/-- Whether data or coordinates are malformed. -/
def isStructural : Error → Bool
  | .arityMismatch .. | .fieldTypeMismatch .. | .invalidCoordinate _ | .corruption _ => true
  | _ => false

/-- Whether something is not known under the name given. -/
def isIdentity : Error → Bool
  | .unknownIdentifier _ | .unknownUuid _ | .unknownVersion .. | .unknownAssemblage _
  | .unknownStampSeq _ => true
  | _ => false

end Error

end Bitemporal
