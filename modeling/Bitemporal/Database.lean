import Bitemporal.Files
import Bitemporal.Settings.Reading
import Bitemporal.Settings.Writing
import Bitemporal.Taxonomy

/-!
# Databases

A `Database` is a store with settings. The settings say in which order viewpoints
break ties, and how taxonomies read their edges.

A database is opened in a directory, which is made if it is not there, with the
settings that are found in it; if there are none, standard settings are written
first.
-/

namespace Bitemporal

namespace Settings

/-- The settings in a file. -/
def ofFile (f : Files) (path : String) : Except Error Settings := do
  match f.readText path with
  | .error fault => throw (.settings (.unreadable path fault))
  | .ok text =>
    match parse? text with
    | none => throw (.settings (.malformedFile path))
    | some settings =>
      settings.validate
      return settings

/-- Writes the standard settings to a file, unless there is one. -/
def writeStandard (f : Files) (path : String) : Except Error Files :=
  if f.contains path then .ok f
  else
    match f.write path (Utf8.encode standardText) with
    | .ok f => .ok f
    | .error fault => .error (.settings (.defaultUnwritable path fault))

/-- Writes settings to a file. -/
def writeFile (s : Settings) (f : Files) (path : String) : Except Error Files := do
  let text ← s.text
  match f.write path (Utf8.encode text) with
  | .ok f => return f
  | .error fault => throw (.settings (.unwritable path fault))

end Settings

/-- A store with settings. -/
structure Database where
  /-- The settings. -/
  settings : Settings := .standard
  /-- The store. -/
  store : Store := .empty
  /-- The directory in which the database was opened. -/
  directory : Option String := none
deriving DecidableEq, Repr

namespace Database

/-- An empty database with standard settings. -/
def empty : Database := {}

/-- An empty database with given settings. -/
def ofSettings (settings : Settings) : Except Error Database := do
  settings.validate
  return { settings }

/-- Opens a database in a directory. -/
def openIn (f : Files) (path : String) : Except Error Database × Files :=
  match f.makeDirectories path with
  | (.error fault, f) => (.error (.io fault), f)
  | (.ok (), f) =>
    let file := Files.join path settingsFileName
    match Settings.writeStandard f file with
    | .error e => (.error e, f)
    | .ok f =>
      let opened := do
        let db ← ofSettings (← Settings.ofFile f file)
        return { db with directory := some path }
      (opened, f)

variable (db : Database)

/-- The viewpoint of a filter. -/
def viewpoint (filter : Filter) : Except Error Viewpoint := do
  Viewpoint.make filter db.store.lineage (← db.settings.tieBreakOrder)

/-- The latest version of a component with a status that counts. -/
def latest (nid : Nid) (filter : Filter) : Except Error Latest := do
  let v ← db.viewpoint filter
  return v.latest (← db.store.history nid)

/-- The latest version of a component of any status, if its status counts. -/
def current (nid : Nid) (filter : Filter) : Except Error Latest := do
  let v ← db.viewpoint filter
  return v.current (← db.store.history nid)

/-- The taxonomy of an assemblage. -/
def taxonomy (assemblage : Nid) (filter : Filter) : Except Error Taxonomy := do
  let v ← db.viewpoint filter
  let t ← Taxonomy.make db.store assemblage db.settings.childField v
  return t.withPolicy (← db.settings.policy)

end Database

end Bitemporal
