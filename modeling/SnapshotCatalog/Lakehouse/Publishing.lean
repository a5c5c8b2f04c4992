import SnapshotCatalog.Chain.Search
import SnapshotCatalog.Definition.Store
import SnapshotCatalog.Path.Definition
import SnapshotCatalog.Transaction
/-!
How versions come into being. Creating a lakehouse publishes version 0 and committing a transaction
publishes the version after the one it began at, each with a single creation of the root where
there is none. Whoever comes second learns that it lost and has changed no root. There are no locks
and nothing is retried.
-/
namespace SnapshotCatalog.Lakehouse

/-- Refuses a node file that is larger than the lakehouse allows. -/
def checkSize (file : Node.File) (d : LakehouseDef) : Except Error Unit :=
  if d.nodeFileMax.toNat < file.size then
    .error (.invalidArgument (.nodeTooLarge file.size d.nodeFileMax.toNat))
  else .ok ()

/-- Stamps a root and creates it as a version. The result is the stored root, or none when the
version is there already. -/
def publish (site : Site) (version : Version) (d : LakehouseDef) (r : Root) :
    Program (Option Root) := do
  let time ← Program.clock
  let file := Node.encode r time
  Program.ofExcept (checkSize file d)
  match ← site.create (RootPath.ofVersion version) (.node file) with
  | .alreadyExists => return none
  | .written => do
    Hint.write site version
    return some (r.persistedAt (.ofVersion version) time)

/-- Creates a lakehouse: writes its definition, and version 0 without any rows. -/
def create (site : Site) (d : LakehouseDef) : Program Root := do
  Program.ofExcept d.validate
  if ← Chain.hasRoot site 0 then .fail (.objectAlreadyExists .initialized)
  else do
    let path := DefinitionPath.ofLakehouse (← Program.freshUuid)
    Definition.store site path d
    match ← publish site 0 d (Root.new path) with
    | some root => return root
    | none => .fail (.objectAlreadyExists .initialized)

/-- Begins a transaction at a stored root. -/
def beginAt (root : Root) (isolation : IsolationLevel) : Program Transaction := do
  let time ← Program.clock
  let id ← Program.freshTransactionId
  return .start id time isolation root

/-- Begins a transaction at the newest version. -/
def begin (site : Site) (isolation : IsolationLevel) : Program Transaction := do
  beginAt (← Chain.latestRoot site) isolation

/-- Begins a transaction at a version. It can only be committed while that version is the newest. -/
def beginAtVersion (site : Site) (version : Version) (isolation : IsolationLevel) :
    Program Transaction := do
  beginAt (← Chain.rootForVersion site version) isolation

/-- What a transaction is about to publish: the version, and the root before it is stamped. -/
def draft (t : Transaction) : Except Error (Version × Root) :=
  if t.running.isPersisted then .error (.invalidArgument .nothingToCommit)
  else
    match t.beginning.location with
    | none => .error (.invalidArgument (.beginningNotPersisted t.id))
    | some location =>
      if location.version.toNat + 1 = UInt64.size then .error (.invalidArgument .noVersionsLeft)
      else
        .ok (location.version + 1, { t.running with previousRootPath := some location.path })

/-- Commits a transaction. -/
def commit (site : Site) (t : Transaction) : Program Committed := do
  let (version, root) ← Program.ofExcept (draft t)
  let d ← LakehouseDef.load site root.lakehouseDefPath
  match ← publish site version d root with
  | none => do
    Program.record .conflict
    .fail (.commitFailure version (RootPath.ofVersion version))
  | some root => do
    Program.record (.commit t.changes)
    return ⟨t.id, root⟩

end SnapshotCatalog.Lakehouse
