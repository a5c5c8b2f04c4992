import SnapshotCatalog.Chain.History
import SnapshotCatalog.Lakehouse.Changing
import SnapshotCatalog.Lakehouse.Publishing
import SnapshotCatalog.Proofs.Contracts
import SnapshotCatalog.Storage.Memory
/-!
The operations of the catalog as data, so that whole sessions and all interleavings of clients can be
spoken of. A change is told apart from its effect: the change is what a caller asks for, and a
mutation is the change together with the identifier that was drawn for its definition.
-/
namespace SnapshotCatalog

open Lakehouse

/-- A change to what a transaction sees. -/
inductive Change where
  | createNamespace (ns : String) (d : NamespaceDef)
  | alterNamespace (ns : String) (d : NamespaceDef)
  | dropNamespace (ns : String)
  | createTable (ns table : String) (d : TableDef)
  | alterTable (ns table : String) (d : TableDef)
  | dropTable (ns table : String)

namespace Change

def program (site : Site) (t : Transaction) : Change → Program Transaction
  | .createNamespace ns d => Lakehouse.createNamespace site t ns d
  | .alterNamespace ns d => Lakehouse.alterNamespace site t ns d
  | .dropNamespace ns => Lakehouse.dropNamespace site t ns
  | .createTable ns table d => Lakehouse.createTable site t ns table d
  | .alterTable ns table d => Lakehouse.alterTable site t ns table d
  | .dropTable ns table => Lakehouse.dropTable site t ns table

/-- The key of the object that the change is about, if its names are accepted. -/
def key (limits : KeyLimits) : Change → Except Error String
  | .createNamespace ns _ => Key.ofNamespace limits ns
  | .alterNamespace ns _ => Key.ofNamespace limits ns
  | .dropNamespace ns => Key.ofNamespace limits ns
  | .createTable ns table _ => Key.ofTable limits ns table
  | .alterTable ns table _ => Key.ofTable limits ns table
  | .dropTable ns table => Key.ofTable limits ns table

/-- The key of the row that the change is about, if the change may be made to a root. -/
def target (c : Change) (limits : KeyLimits) (r : Root) : Except Error String :=
  match c with
  | .createNamespace ns _ => vacantNamespace limits r ns
  | .alterNamespace ns _ => (existingNamespace limits r ns).map (·.1)
  | .dropNamespace ns => emptyNamespace limits r ns
  | .createTable ns table _ => vacantTable limits r ns table
  | .alterTable ns table _ => (existingTable limits r ns table).map (·.1)
  | .dropTable ns table => (existingTable limits r ns table).map (·.1)

/-- The bytes of the definition that the change brings, and the path for an identifier. -/
def definition? : Change → Option (List UInt8 × (Uuid → String))
  | .createNamespace ns d => some (d.encode, DefinitionPath.ofNamespace ns)
  | .alterNamespace ns d => some (d.encode, DefinitionPath.ofNamespace ns)
  | .dropNamespace _ => none
  | .createTable ns table d => some (d.encode, DefinitionPath.ofTable ns table)
  | .alterTable ns table d => some (d.encode, DefinitionPath.ofTable ns table)
  | .dropTable _ _ => none

/-- Carries out an admitted change. -/
def perform (site : Site) (t : Transaction) (key : String) : Change → Program Transaction
  | .createNamespace ns d => define site t key (DefinitionPath.ofNamespace ns) d
  | .alterNamespace ns d => define site t key (DefinitionPath.ofNamespace ns) d
  | .dropNamespace _ => .done (remove t key)
  | .createTable ns table d => define site t key (DefinitionPath.ofTable ns table) d
  | .alterTable ns table d => define site t key (DefinitionPath.ofTable ns table) d
  | .dropTable _ _ => .done (remove t key)

end Change

/-- A question about what a transaction sees. -/
inductive Query where
  | describeLakehouse
  | showNamespaces
  | namespaceExists (ns : String)
  | describeNamespace (ns : String)
  | showTables (ns : String)
  | tableExists (ns table : String)
  | describeTable (ns table : String)

/-- What an operation delivers. -/
inductive Reply where
  | root (r : Root)
  | roots (read : List Root) (error : Option Error)
  | transaction (t : Transaction)
  | committed (c : Committed)
  | lakehouse (d : LakehouseDef)
  | ns (d : NamespaceDef)
  | table (d : TableDef)
  | names (list : List String)
  | truth (value : Bool)
  | version (v : Version)
  | count (n : Nat)

/-- The program with its value made a reply. -/
def Program.replying {α : Type} (p : Program α) (reply : α → Reply) : Program Reply :=
  p.bind fun value => .done (reply value)

def Query.program (site : Site) (t : Transaction) : Query → Program Reply
  | .describeLakehouse => (Lakehouse.describeLakehouse site t).replying .lakehouse
  | .showNamespaces => (Lakehouse.showNamespaces site t).replying .names
  | .namespaceExists ns => (Lakehouse.namespaceExists site t ns).replying .truth
  | .describeNamespace ns => (Lakehouse.describeNamespace site t ns).replying .ns
  | .showTables ns => (Lakehouse.showTables site t ns).replying .names
  | .tableExists ns table => (Lakehouse.tableExists site t ns table).replying .truth
  | .describeTable ns table => (Lakehouse.describeTable site t ns table).replying .table

/-- An operation of the catalog. Transactions are named by `τ`. -/
inductive Operation (τ : Type) where
  | create (d : LakehouseDef)
  | begin (isolation : IsolationLevel)
  | beginAtVersion (version : Version) (isolation : IsolationLevel)
  | query (t : τ) (q : Query)
  | change (t : τ) (c : Change)
  | commit (t : τ)
  | latestVersion
  | rootForVersion (version : Version)
  | rootBefore (time : Millis)
  | history (polls : Nat)
  | verify

namespace Operation

variable {τ υ : Type}

/-- The transaction that an operation is about. -/
def about? : Operation τ → Option τ
  | .query t _ => some t
  | .change t _ => some t
  | .commit t => some t
  | _ => none

/-- The same operation with transactions named otherwise. -/
def map (f : τ → υ) : Operation τ → Operation υ
  | .create d => .create d
  | .begin isolation => .begin isolation
  | .beginAtVersion version isolation => .beginAtVersion version isolation
  | .query t q => .query (f t) q
  | .change t c => .change (f t) c
  | .commit t => .commit (f t)
  | .latestVersion => .latestVersion
  | .rootForVersion version => .rootForVersion version
  | .rootBefore time => .rootBefore time
  | .history polls => .history polls
  | .verify => .verify

def program (site : Site) : Operation Transaction → Program Reply
  | .create d => (Lakehouse.create site d).replying .root
  | .begin isolation => (Lakehouse.begin site isolation).replying .transaction
  | .beginAtVersion version isolation =>
    (Lakehouse.beginAtVersion site version isolation).replying .transaction
  | .query t q => q.program site t
  | .change t c => (c.program site t).replying .transaction
  | .commit t => (Lakehouse.commit site t).replying .committed
  | .latestVersion => (Chain.latestVersion site).replying .version
  | .rootForVersion version => (Chain.rootForVersion site version).replying .root
  | .rootBefore time => (Chain.rootBefore site time).replying .root
  | .history polls => (Chain.history site polls).replying fun (read, error) => .roots read error
  | .verify => (Chain.verify site).replying .count

/-- The bytes of the definition that an operation brings. -/
def encoding? : Operation τ → Option (List UInt8)
  | .create d => some d.encode
  | .change _ c => c.definition?.map (·.1)
  | _ => none

/-- Whether the definition that an operation brings takes fewer bytes than a length can count, as
everything in memory does. -/
def Fits (op : Operation τ) : Prop := ∀ data, op.encoding? = some data → data.length < UInt64.size

instance (op : Operation τ) : Decidable op.Fits :=
  inferInstanceAs (Decidable (∀ data ∈ op.encoding?, data.length < UInt64.size))

theorem Fits.of_change {t : τ} {c : Change} (h : (Operation.change t c).Fits) (data : List UInt8)
    (path : Uuid → String) (hDefinition : c.definition? = some (data, path)) :
    data.length < UInt64.size :=
  h data (congrArg (Option.map Prod.fst) hDefinition)

end Operation

/-- A change that a transaction made, with the identifier that was drawn for its definition. -/
structure Mutation where
  change : Change
  drawn : Option Uuid

namespace Mutation

/-- Where the definition of the change lies. A change that brings none has no such path. -/
def place? (m : Mutation) : Option String :=
  m.change.definition?.bind fun (_, path) => m.drawn.map path

/-- What the mutation does to the row of a key. -/
def touch (m : Mutation) (r : Root) (key : String) : Root :=
  match m.place? with
  | some place => r.withRow key place
  | none => r.withoutRow key

/-- The root after the mutation. It fails where the change may not be made. -/
def applyTo (limits : KeyLimits) (r : Root) (m : Mutation) : Except Error Root :=
  (m.change.target limits r).map (m.touch r)

/-- The rows after the mutation. Nothing but the rows of a root decides about a change, so any root
with these rows may be asked. -/
def apply (limits : KeyLimits) (rows : TextMap String) (m : Mutation) :
    Except Error (TextMap String) :=
  (m.applyTo limits { Root.new "" with rows }).map (·.rows)

/-- The definition of the change fits into memory and is stored at its place, which is a path that is
accepted. -/
def Stored (site : Site) (store : Storage.Memory) (m : Mutation) : Prop :=
  ∀ data path, m.change.definition? = some (data, path) → data.length < UInt64.size ∧
    ∃ id, m.drawn = some id ∧ Path.check (path id) = .ok () ∧
      store.get? (site.resolve (path id)) = some (.bytes data)

end Mutation

end SnapshotCatalog
