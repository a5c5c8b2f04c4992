import SnapshotCatalog.Lakehouse.Reading
import SnapshotCatalog.Path.Definition
/-!
Changes that a transaction makes. A new definition is stored at a fresh path before a row names it,
and only the private root of the transaction is changed, so nobody else sees a change before it is
committed. Dropping something removes its row; its definitions stay for older versions.
-/
namespace SnapshotCatalog.Lakehouse

/-- The key of a namespace that must not be there. -/
def vacantNamespace (limits : KeyLimits) (r : Root) (ns : String) : Except Error String := do
  let key ← Key.ofNamespace limits ns
  if r.rows.contains key then .error (.objectAlreadyExists (.entity "namespace" ns))
  else return key

/-- The key of a namespace that must be there and have no tables. -/
def emptyNamespace (limits : KeyLimits) (r : Root) (ns : String) : Except Error String := do
  let (key, _) ← existingNamespace limits r ns
  let start ← Key.tableStart limits ns
  if (r.rowsWithStart start).isEmpty then return key
  else .error (.invalidArgument (.namespaceNotEmpty ns))

/-- The key of a table that must not be there in a namespace that must be. -/
def vacantTable (limits : KeyLimits) (r : Root) (ns table : String) : Except Error String := do
  let key ← tableKey limits r ns table
  if r.rows.contains key then .error (.objectAlreadyExists (.entity "table" (tableId ns table)))
  else return key

/-- Stores a definition at a fresh path and lets the row of a key name it. -/
def define {α : Type} [Definition α] (site : Site) (t : Transaction) (key : String)
    (path : Uuid → String) (d : α) : Program Transaction := do
  let place := path (← Program.freshUuid)
  Definition.store site place d
  return t.withRunning (t.running.withRow key place)

/-- Removes the row of a key. -/
def remove (t : Transaction) (key : String) : Transaction :=
  t.withRunning (t.running.withoutRow key)

def createNamespace (site : Site) (t : Transaction) (ns : String) (d : NamespaceDef) :
    Program Transaction := do
  let key ← look site t fun limits r => vacantNamespace limits r ns
  define site t key (DefinitionPath.ofNamespace ns) d

def alterNamespace (site : Site) (t : Transaction) (ns : String) (d : NamespaceDef) :
    Program Transaction := do
  let (key, _) ← look site t fun limits r => existingNamespace limits r ns
  define site t key (DefinitionPath.ofNamespace ns) d

def dropNamespace (site : Site) (t : Transaction) (ns : String) : Program Transaction := do
  return remove t (← look site t fun limits r => emptyNamespace limits r ns)

def createTable (site : Site) (t : Transaction) (ns table : String) (d : TableDef) :
    Program Transaction := do
  let key ← look site t fun limits r => vacantTable limits r ns table
  define site t key (DefinitionPath.ofTable ns table) d

def alterTable (site : Site) (t : Transaction) (ns table : String) (d : TableDef) :
    Program Transaction := do
  let (key, _) ← look site t fun limits r => existingTable limits r ns table
  define site t key (DefinitionPath.ofTable ns table) d

def dropTable (site : Site) (t : Transaction) (ns table : String) : Program Transaction := do
  let (key, _) ← look site t fun limits r => existingTable limits r ns table
  return remove t key

end SnapshotCatalog.Lakehouse
