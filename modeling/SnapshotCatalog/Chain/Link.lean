import SnapshotCatalog.Node.Codec
import SnapshotCatalog.Chain.Latest
/-!
Roots as links of a chain. The root of every version but the first names the root of the version
before it. A name that is missing, is no root path, skips versions or leads to nothing breaks the
chain at the root that should hold it.
-/
namespace SnapshotCatalog.Chain

/-- The root in an object found at a path. It has no place yet. -/
def parseNode (path : String) (blob : Storage.Blob) : Except Error Root :=
  match blob with
  | .bytes _ => .error (.corrupted path .unreadable)
  | .node file =>
    match Node.decode file with
    | .ok root => .ok root
    | .error corruption => .error (.corrupted path corruption)

/-- The root in an object found at its place. -/
def parseRoot (location : Location) (blob : Storage.Blob) : Except Error Root := do
  return { (← parseNode location.path blob) with location := some location }

/-- The version whose root lies at a path, which must be a root path. -/
def versionAt (path : String) : Except Error Version :=
  match RootPath.version? path with
  | some version => .ok version
  | none => .error (.invalidArgument (.rootPath path))

/-- Reads the root at a root path. -/
def readRootAt (site : Site) (path : String) : Program Root := do
  let version ← Program.ofExcept (versionAt path)
  Program.ofExcept (parseRoot ⟨path, version⟩ (← site.read path))

/-- Reads the root of a version. -/
def readRoot (site : Site) (version : Version) : Program Root :=
  readRootAt site (RootPath.ofVersion version)

/-- The newest committed root. -/
def latestRoot (site : Site) : Program Root := do
  readRoot site (← latestVersion site)

/-- Where the chain goes on below a root, as far as the root itself shows. -/
inductive Pointer where
  | start
  | broken (link : BrokenLink)
  | root (path : String)
  deriving DecidableEq, Repr

/-- Where a root of a version points. -/
def pointer (version : Version) (previous : Option String) : Pointer :=
  match previous with
  | none => if version = 0 then .start else .broken .missing
  | some path =>
    if version = 0 then .broken (.firstHasPrevious path)
    else
      match RootPath.version? path with
      | none => .broken (.malformed path)
      | some before =>
        if before.toNat + 1 = version.toNat then .root path else .broken (.skips version before)

/-- The place of a root that was stored. -/
def locationOf (r : Root) : Except Error Location :=
  match r.location with
  | some location => .ok location
  | none => .error (.invalidArgument .rootNotPersisted)

/-- What stands below a root in the chain. A broken link names the path of the root that holds
it. -/
inductive Previous where
  | root (r : Root)
  | start
  | broken (path : String) (link : BrokenLink)

/-- Reads the root below a root. -/
def readPrevious (site : Site) (r : Root) : Program Previous := do
  let location ← Program.ofExcept (locationOf r)
  match pointer location.version r.previousRootPath with
  | .start => return .start
  | .broken link => return .broken location.path link
  | .root path =>
    match ← (readRootAt site path).attempt with
    | .ok previous => return .root previous
    | .error error =>
      if error.isNotFound then return .broken location.path (.dangling path) else .fail error

end SnapshotCatalog.Chain
