import SnapshotCatalog.Program
import SnapshotCatalog.Path.Check
/-!
Where a lakehouse lies within a store. Every path of the lakehouse is checked and resolved below
the place it was given, and the store is only asked about what results from that. Creating an
object where there is none is how versions are published; overwriting is for the hint alone.
-/
namespace SnapshotCatalog

/-- The place of a lakehouse: the directory that its paths are resolved below, or the top. -/
structure Site where
  directory : Option String
  deriving DecidableEq, Repr

namespace Site

/-- The top of a store. -/
def top : Site := ⟨none⟩

/-- The place below a directory. Slashes around it do not count, and an empty one is the top. -/
def below (directory : String) : Except Error Site := do
  let name := Text.strip '/' directory
  if name = "" then return top
  Path.check name
  return ⟨some name⟩

/-- A path as the store sees it, without any check. -/
def resolve (site : Site) (path : String) : String :=
  match site.directory with
  | some directory => directory ++ "/" ++ path
  | none => path

/-- The key of a path that is accepted. -/
def key (site : Site) (path : String) : Except Error String := do
  Path.check path
  return site.resolve path

/-- How the keys of the lakehouse begin. -/
def keyStart (site : Site) : String := site.resolve ""

/-- How the keys begin whose paths begin so. The empty beginning stands for the whole lakehouse
and is not checked. -/
def listStart (site : Site) (start : String) : Except Error String :=
  if start = "" then .ok site.keyStart else site.key start

/-- What the store knows about the object at a path. -/
def head (site : Site) (path : String) : Program (Option Storage.ObjectMeta) := do
  let key ← Program.ofExcept (site.key path)
  Program.call (.head key)

/-- Whether there is an object at a path. -/
def contains (site : Site) (path : String) : Program Bool := do
  return (← site.head path).isSome

/-- The object at a path. -/
def read (site : Site) (path : String) : Program Storage.Blob := do
  let key ← Program.ofExcept (site.key path)
  Program.call (.get key)

/-- The paths that begin so, in byte order. -/
def list (site : Site) (start : String) : Program (List String) := do
  let keys ← Program.ofExcept (site.listStart start)
  let found ← Program.call (.list keys)
  return Key.sort (found.filterMap fun object => Text.after? site.keyStart object.key)

/-- Creates an object where there is none. An object that is there already is left alone, and that
is an answer and not an error. -/
def create (site : Site) (path : String) (blob : Storage.Blob) : Program Storage.WriteOutcome := do
  let key ← Program.ofExcept (site.key path)
  Program.call (.put key blob .createNew)

/-- Writes an object whatever was there. -/
def overwrite (site : Site) (path : String) (blob : Storage.Blob) : Program Unit := do
  let key ← Program.ofExcept (site.key path)
  match ← Program.call (.put key blob .overwrite) with
  | .written => return ()
  | .alreadyExists => .fail (.storageWrite (.overwriteRefused path) none)

/-- Deletes keys one after another, up to the first that fails. -/
def deleteKeys : List String → Program Unit
  | [] => .done ()
  | key :: rest => do
    Program.call (.delete key)
    deleteKeys rest

/-- Deletes objects. All paths are checked before the first is deleted; a path without an object is
no error. -/
def delete (site : Site) (paths : List String) : Program Unit := do
  let keys ← Program.ofExcept (paths.mapM site.key)
  deleteKeys keys

end Site

end SnapshotCatalog
