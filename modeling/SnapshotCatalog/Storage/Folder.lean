import SnapshotCatalog.Storage.Bucket
/-!
A directory tree that serves as a bucket. An object is a file, and the segments before the last of
its key are folders. Folders come into being with the first write below them and stay when what
lies below them is deleted. Nothing lies below a file, a folder is no object, paths and the names in
them have a greatest length, and a name like that of a drive always stands for a folder. Names are
followed one by one, so the first one that leads nowhere decides.
-/
namespace SnapshotCatalog.Storage

/-- What a name in the tree stands for. -/
inductive Entry where
  | file (blob : Blob)
  | folder
  deriving DecidableEq

def Entry.blob? : Entry → Option Blob
  | .file blob => some blob
  | .folder => none

/-- Files and folders by their keys, below a folder whose own path takes some bytes. -/
structure Folder where
  rootSize : Nat
  entries : TextMap Entry

namespace Folder

def empty (rootSize : Nat) : Folder := ⟨rootSize, .empty⟩

/-- The longest path that leads anywhere, in bytes. -/
def pathMax : Nat := 4095

/-- The longest name that a file or a folder can have, in bytes. -/
def nameMax : Nat := 255

/-- A file is first written beside its place under its name with two more bytes. -/
def stagingSize : Nat := 2

def nameSize (seg : List Char) : Nat := (String.ofList seg).utf8ByteSize

def keyOf (segs : List (List Char)) : String := String.ofList (Path.joinSegments segs)

/-- What following the names of a key meets. -/
inductive Found where
  | blocked
  | nothing
  | entry (e : Entry)
  deriving DecidableEq

/-- Follows names below a folder. A name that is too long and a name below a file are refused. -/
def follow (f : Folder) (above : List (List Char)) : List (List Char) → Found
  | [] => .entry .folder
  | seg :: rest =>
    if nameMax < nameSize seg then .blocked
    else
      match f.entries.get? (keyOf (above ++ [seg])) with
      | none => .nothing
      | some .folder => follow f (above ++ [seg]) rest
      | some (.file blob) => if rest.isEmpty then .entry (.file blob) else .blocked

/-- Whether the whole path of a key is too long with some more bytes at its end. -/
def isTooLong (f : Folder) (path : String) (more : Nat) : Bool :=
  pathMax < f.rootSize + 1 + (Path.key path).utf8ByteSize + more

/-- What a path leads to. -/
def find (f : Folder) (path : String) : Found :=
  if f.isTooLong path 0 then .blocked else f.follow [] (Path.keySegments path)

/-- Makes folders below a folder, up to the first name that is refused. -/
def makeFolders (f : Folder) (above : List (List Char)) : List (List Char) → Bool × Folder
  | [] => (true, f)
  | seg :: rest =>
    if nameMax < nameSize seg then (false, f)
    else
      match f.entries.get? (keyOf (above ++ [seg])) with
      | some (.file _) => (false, f)
      | some .folder => makeFolders f (above ++ [seg]) rest
      | none =>
        makeFolders { f with entries := f.entries.insert (keyOf (above ++ [seg])) .folder }
          (above ++ [seg]) rest

/-- Whether a name is like that of a drive: it ends in a letter and a colon. -/
def isDrive (seg : List Char) : Bool :=
  match seg.reverse with
  | ':' :: letter :: _ => letter.isAlpha
  | _ => false

/-- Whether the last name of a path stands for a folder whatever it leads to. -/
def endsInDrive (path : String) : Bool := (Path.keySegments path).getLast?.any isDrive

/-- The folders that a write to a path makes. A name like that of a drive is one of them. -/
def foldersOf (path : String) : List (List Char) :=
  if endsInDrive path then Path.keySegments path else (Path.keySegments path).dropLast

/-- Whether the last name of a path leaves no room for writing beside its place. What is written
to a folder is first written within it, where there is room. -/
def isUnwritable (path : String) : Bool :=
  !endsInDrive path &&
    (Path.keySegments path).getLast?.all fun seg => nameMax < nameSize seg + stagingSize

def writeFailed (path : String) : Error := .storageWrite (.object path) (some "")

/-- Writes a file whose folders are there. -/
def writeFile (f : Folder) (path : String) (blob : Blob) (mode : WriteMode) :
    Except Error WriteOutcome × Folder :=
  let stored := { f with entries := f.entries.insert (Path.key path) (.file blob) }
  match mode, f.entries.get? (Path.key path) with
  | .createNew, some _ => (.ok .alreadyExists, f)
  | .createNew, none => (.ok .written, stored)
  | .overwrite, some .folder => (.error (writeFailed path), f)
  | .overwrite, _ => (.ok .written, stored)

/-- The objects of the tree. -/
def files (f : Folder) : List (String × Blob) :=
  f.entries.entries.filterMap fun (key, entry) => entry.blob?.map fun blob => (key, blob)

/-- Answers a call. -/
def answer : (c : Call) → Folder → c.Answer × Folder
  | .get path, f =>
    match f.find path with
    | .blocked => (.error (.storageRead (.object path) (some "")), f)
    | .entry (.file blob) => (.ok blob, f)
    | _ => (.error (noObject path), f)
  | .put path blob mode, f =>
    if f.isTooLong path stagingSize then (.error (writeFailed path), f)
    else
      match f.makeFolders [] (foldersOf path) with
      | (false, f) => (.error (writeFailed path), f)
      | (true, f) =>
        if isUnwritable path then (.error (writeFailed path), f) else writeFile f path blob mode
  | .delete path, f =>
    match f.find path with
    | .nothing => (.ok (), f)
    | .entry (.file _) => (.ok (), { f with entries := f.entries.erase (Path.key path) })
    | _ => (.error (.storageWrite (.deletion path) (some "")), f)
  | .list start, f =>
    if (Path.directory? start).any (f.find · = .blocked) then
      (.error (.storageRead (.listing start) (some "")), f)
    else (.ok ((f.files.filter fun file => Bucket.lists start file.1).map Memory.metaOf), f)
  | .head path, f =>
    match f.find path with
    | .blocked => (.error (.storageRead (.metadata path) (some "")), f)
    | .entry (.file blob) => (.ok (some ⟨Path.key path, blob.size⟩), f)
    | _ => (.ok none, f)

end Folder

end SnapshotCatalog.Storage
