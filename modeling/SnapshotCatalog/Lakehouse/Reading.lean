import SnapshotCatalog.Definition.Store
import SnapshotCatalog.Transaction
/-!
What a transaction sees: its own changes on top of the root it began at. The limits of the
lakehouse are read first, then names are checked, then rows are looked up. Whatever is asked about
a table asks for its namespace first.
-/
namespace SnapshotCatalog.Lakehouse

/-- How errors name a table. -/
def tableId (ns table : String) : String := ns ++ "." ++ table

/-- The value of a row that must be there. -/
def existing (r : Root) (key kind id : String) : Except Error String :=
  match r.rows.get? key with
  | some value => .ok value
  | none => .error (.objectNotFound (.entity kind id))

/-- The key of a namespace that must be there, and the path of its definition. -/
def existingNamespace (limits : KeyLimits) (r : Root) (ns : String) :
    Except Error (String × String) := do
  let key ← Key.ofNamespace limits ns
  return (key, ← existing r key "namespace" ns)

/-- The key of a table, once its namespace is known to be there. -/
def tableKey (limits : KeyLimits) (r : Root) (ns table : String) : Except Error String := do
  let _ ← existingNamespace limits r ns
  Key.ofTable limits ns table

/-- The key of a table that must be there, and the path of its definition. -/
def existingTable (limits : KeyLimits) (r : Root) (ns table : String) :
    Except Error (String × String) := do
  let key ← tableKey limits r ns table
  return (key, ← existing r key "table" (tableId ns table))

/-- The names of the namespaces. Key order is name order, so they are sorted. -/
def namespaceNames (limits : KeyLimits) (r : Root) : Except Error (List String) :=
  (r.rowsWithStart Key.namespaceMark).mapM fun row => Key.namespaceName limits row.1

/-- The names of the tables of a namespace, sorted. -/
def tableNames (limits : KeyLimits) (r : Root) (ns : String) : Except Error (List String) := do
  let _ ← existingNamespace limits r ns
  let start ← Key.tableStart limits ns
  (r.rowsWithStart start).mapM fun row => Key.tableName limits row.1

/-- The limits that apply to a transaction. -/
def keyLimits (site : Site) (t : Transaction) : Program KeyLimits := do
  return (← LakehouseDef.load site t.running.lakehouseDefPath).keyLimits

/-- Looks something up among the rows that a transaction sees. -/
def look {α : Type} (site : Site) (t : Transaction)
    (question : KeyLimits → Root → Except Error α) : Program α := do
  let limits ← keyLimits site t
  Program.ofExcept (question limits t.running)

def describeLakehouse (site : Site) (t : Transaction) : Program LakehouseDef :=
  LakehouseDef.load site t.running.lakehouseDefPath

def showNamespaces (site : Site) (t : Transaction) : Program (List String) :=
  look site t namespaceNames

def namespaceExists (site : Site) (t : Transaction) (ns : String) : Program Bool :=
  look site t fun limits r => return r.rows.contains (← Key.ofNamespace limits ns)

def describeNamespace (site : Site) (t : Transaction) (ns : String) : Program NamespaceDef := do
  let (_, path) ← look site t fun limits r => existingNamespace limits r ns
  Definition.load site path

def showTables (site : Site) (t : Transaction) (ns : String) : Program (List String) :=
  look site t fun limits r => tableNames limits r ns

def tableExists (site : Site) (t : Transaction) (ns table : String) : Program Bool :=
  look site t fun limits r => return r.rows.contains (← tableKey limits r ns table)

def describeTable (site : Site) (t : Transaction) (ns table : String) : Program TableDef := do
  let (_, path) ← look site t fun limits r => existingTable limits r ns table
  Definition.load site path

end SnapshotCatalog.Lakehouse
