import Bitemporal.Bytes.Utf8
import Bitemporal.Error
import Bitemporal.Table

/-!
# Files

A `Files` value is a tree of directories and files, as much of a file system as
the settings of a database need. A place is named by a path: names with slashes
between, where `.` stands for the directory itself and `..` for the one above.
Both a path and its names have a limited length in octets.
-/

namespace Bitemporal

/-- What lies at a place of a file system. -/
inductive FileNode where
  /-- A directory with what lies in it, by name. -/
  | directory (entries : Table String FileNode)
  /-- A file with its octets. -/
  | file (octets : List UInt8)
deriving Repr

namespace FileNode

/-- A directory with nothing in it. -/
def emptyDirectory : FileNode := .directory .empty

/-- What lies at a place with `node` at a place below it. All that lead there must be
    directories, and only the last name may be missing. -/
def put (node : FileNode) : (place : List String) → FileNode → FileNode
  | [], _ => node
  | name :: rest, .directory entries =>
    .directory (entries.insert name (put node rest ((entries.get? name).getD node)))
  | _ :: _, .file octets => .file octets

/-- What lies at a place without what lies at a place below it. -/
def remove : (place : List String) → FileNode → FileNode
  | [], _ => emptyDirectory
  | [name], .directory entries => .directory (entries.erase name)
  | name :: rest, .directory entries =>
    match entries.get? name with
    | some below => .directory (entries.insert name (remove rest below))
    | none => .directory entries
  | _ :: _, .file octets => .file octets

end FileNode

/-- A file system. -/
structure Files where
  /-- What lies at the root: a directory. -/
  root : FileNode := .emptyDirectory
deriving Repr

namespace Files

/-- A file system with nothing in it. -/
def empty : Files := {}

/-! ## Paths -/

/-- The octets that a path may have. -/
def pathLimit : Nat := 4095

/-- The octets that a name may have. -/
def nameLimit : Nat := 255

/-- The names of a path. -/
def names (path : String) : Except FileFault (List String) :=
  if path.toList.contains '\x00' then .error .holdsNul
  else if path.utf8ByteSize > pathLimit then .error .tooLong
  else .ok ((path.splitOn "/").filter fun name => name ≠ "")

/-- The path of a name below a path. -/
def join (path name : String) : String :=
  if path.toList.getLast? = some '/' then path ++ name else path ++ "/" ++ name

/-- Names without those at the end that stand for the directory itself. -/
def trimmed (names : List String) : List String :=
  (names.reverse.dropWhile fun name => name = ".").reverse

/-- The names of the directory above the last name, whether or not `.` stands around
    that name. -/
def parent (names : List String) : List String :=
  trimmed (trimmed names).dropLast

/-! ## Places -/

/-- The names that lead to a place from the root, the last one first, each with what
    lies there. -/
abbrev Trail := List (String × Option FileNode)

/-- What lies at the end of a trail. -/
def ending (f : Files) : Trail → Option FileNode
  | [] => some f.root
  | (_, node?) :: _ => node?

/-- The trail that goes on from another one by names. All but the last must be there.
    A name that is too long is found out in its directory, and so not before one
    that is missing above. -/
def walk (f : Files) (trail : Trail) : List String → Except FileFault Trail
  | [] => .ok trail
  | name :: rest =>
    match f.ending trail with
    | none => .error .missing
    | some (.file _) => .error .notDirectory
    | some (.directory entries) =>
      if name = "." then f.walk trail rest
      else if name = ".." then f.walk trail.tail rest
      else if name.utf8ByteSize > nameLimit then .error .tooLong
      else f.walk ((name, entries.get? name) :: trail) rest

/-- The trail that the names of a path give. -/
def locate (f : Files) (names : List String) : Except FileFault Trail :=
  f.walk [] names

/-- The place at the end of a trail. -/
def place (trail : Trail) : List String :=
  (trail.map Prod.fst).reverse

/-- What the names of a path lead to. -/
def lookup (f : Files) (names : List String) : Except FileFault FileNode := do
  match f.ending (← f.locate names) with
  | some node => return node
  | none => throw .missing

/-- Whether something lies where a path leads to. -/
def contains (f : Files) (path : String) : Bool :=
  (names path >>= f.lookup).isOk

/-- Whether the names of a path lead to a directory. -/
def isDirectory (f : Files) (names : List String) : Bool :=
  match f.lookup names with
  | .ok (.directory _) => true
  | _ => false

/-! ## Changes -/

/-- Adds a directory. -/
def addDirectory (f : Files) (names : List String) : Except FileFault Files := do
  let trail ← f.locate names
  match f.ending trail with
  | some _ => throw .occupied
  | none => return ⟨.put .emptyDirectory (place trail) f.root⟩

/-- Makes a directory. -/
def makeDirectory (f : Files) (path : String) : Except FileFault Files := do
  f.addDirectory (← names path)

theorem length_trimmed_le (names : List String) : (trimmed names).length ≤ names.length := by
  have := (List.dropWhile_sublist (fun name : String => decide (name = "."))
    (l := names.reverse)).length_le
  simpa [trimmed] using this

theorem length_parent_lt {names : List String} (h : names ≠ []) :
    (parent names).length < names.length := by
  have h₁ := length_trimmed_le names
  have h₂ := length_trimmed_le (trimmed names).dropLast
  have h₃ := List.length_pos_iff.2 h
  rw [List.length_dropLast] at h₂
  unfold parent
  omega

/-- Adds a directory, unless it is there. -/
def ensureDirectory (f : Files) (names : List String) : Except FileFault Files :=
  match f.addDirectory names with
  | .ok f => .ok f
  | .error fault => if f.isDirectory names then .ok f else .error fault

/-- Adds a directory and all that lead to it, unless they are there. A failure may
    leave some of them behind. -/
def ensureDirectories (f : Files) (names : List String) : Except FileFault Unit × Files :=
  match f.addDirectory names with
  | .ok f => (.ok (), f)
  | .error fault =>
    -- only a directory that is missing above can be helped
    if fault ≠ .missing then
      if f.isDirectory names then (.ok (), f) else (.error fault, f)
    else if _h : names = [] then (.error fault, f)
    else
      match f.ensureDirectories (parent names) with
      | (.error fault, f) => (.error fault, f)
      | (.ok (), f) =>
        match f.ensureDirectory names with
        | .ok f => (.ok (), f)
        | .error fault => (.error fault, f)
termination_by names.length
decreasing_by exact length_parent_lt _h

/-- Makes a directory and all that lead to it, unless they are there. A failure may
    leave some of them behind. -/
def makeDirectories (f : Files) (path : String) : Except FileFault Unit × Files :=
  match names path with
  | .error fault => (.error fault, f)
  | .ok names => f.ensureDirectories names

/-- Writes a file, in place of the one that was there. -/
def write (f : Files) (path : String) (octets : List UInt8) : Except FileFault Files := do
  let trail ← f.locate (← names path)
  match f.ending trail with
  | some (.directory _) => throw .isDirectory
  | _ => return ⟨.put (.file octets) (place trail) f.root⟩

/-- The text of a file. -/
def readText (f : Files) (path : String) : Except TextFault String :=
  match names path >>= f.lookup with
  | .error fault => .error (.inaccessible fault)
  | .ok (.directory _) => .error (.inaccessible .isDirectory)
  | .ok (.file octets) =>
    match Utf8.decode octets with
    | .ok text => .ok text
    | .error _ => .error .notText

/-- Removes a place and all that lies below it. -/
def removeAll (f : Files) (path : String) : Files :=
  match names path >>= f.locate with
  | .error _ => f
  | .ok trail => ⟨.remove (place trail) f.root⟩

end Files

end Bitemporal
