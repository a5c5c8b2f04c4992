import SnapshotCatalog.Proofs.Mutations
import SnapshotCatalog.Proofs.NamePaths
import SnapshotCatalog.Proofs.TextMaps
/-!
The catalog as its callers think of it: namespaces by name, and in each of them tables by name. What
a call answers and what a change leads to is said here without rows, keys or a store. A change sets
or removes the definition of one object and leaves every other object alone.
-/
namespace SnapshotCatalog

/-- What a namespace holds: its definition, and its tables by name. -/
structure Shelf where
  definition : NamespaceDef
  tables : TextMap TableDef

/-- Namespaces by name. -/
abbrev Catalog := TextMap Shelf

namespace Catalog

/-- The namespace of a name, which must be accepted. -/
def shelf (limits : KeyLimits) (c : Catalog) (ns : String) : Except Error Shelf :=
  (Name.check "namespace" ns limits.ns).bind fun _ =>
    match c.get? ns with
    | some shelf => .ok shelf
    | none => .error (.objectNotFound (.entity "namespace" ns))

/-- The tables among which a table is looked up. Its namespace must be there, and its name must be
accepted. -/
def tables (limits : KeyLimits) (c : Catalog) (ns table : String) :
    Except Error (TextMap TableDef) :=
  (c.shelf limits ns).bind fun shelf =>
    (Name.check "table" table limits.table).map fun _ => shelf.tables

/-- The definition of a table that must be there. -/
def table (limits : KeyLimits) (c : Catalog) (ns table : String) : Except Error TableDef :=
  (c.tables limits ns table).bind fun tables =>
    match tables.get? table with
    | some d => .ok d
    | none => .error (.objectNotFound (.entity "table" (Lakehouse.tableId ns table)))

/-- The answer to a question about the catalog of a lakehouse. -/
def answer (d : LakehouseDef) (c : Catalog) : Query → Except Error Reply
  | .describeLakehouse => .ok (.lakehouse d)
  | .showNamespaces => .ok (.names c.keys)
  | .namespaceExists ns =>
    (Name.check "namespace" ns d.keyLimits.ns).map fun _ => .truth (c.contains ns)
  | .describeNamespace ns => (c.shelf d.keyLimits ns).map fun shelf => .ns shelf.definition
  | .showTables ns => (c.shelf d.keyLimits ns).map fun shelf => .names shelf.tables.keys
  | .tableExists ns table =>
    (c.tables d.keyLimits ns table).map fun tables => .truth (tables.contains table)
  | .describeTable ns table => (c.table d.keyLimits ns table).map .table

/-- Whether a change may be made, as far as names and what is there decide. -/
def allows (limits : KeyLimits) (c : Catalog) : Change → Except Error Unit
  | .createNamespace ns _ =>
    (Name.check "namespace" ns limits.ns).bind fun _ =>
      if c.contains ns then .error (.objectAlreadyExists (.entity "namespace" ns)) else .ok ()
  | .alterNamespace ns _ => (c.shelf limits ns).map fun _ => ()
  | .dropNamespace ns =>
    (c.shelf limits ns).bind fun shelf =>
      if shelf.tables.keys.isEmpty then .ok ()
      else .error (.invalidArgument (.namespaceNotEmpty ns))
  | .createTable ns table _ =>
    (c.tables limits ns table).bind fun tables =>
      if tables.contains table then
        .error (.objectAlreadyExists (.entity "table" (Lakehouse.tableId ns table)))
      else .ok ()
  | .alterTable ns table _ => (c.table limits ns table).map fun _ => ()
  | .dropTable ns table => (c.table limits ns table).map fun _ => ()

/-- The catalog with one namespace changed, if it is there. -/
def onShelf (c : Catalog) (ns : String) (f : Shelf → Shelf) : Catalog :=
  match c.get? ns with
  | some shelf => c.insert ns (f shelf)
  | none => c

/-- The catalog with the tables of one namespace changed, if it is there. -/
def onTables (c : Catalog) (ns : String) (f : TextMap TableDef → TextMap TableDef) : Catalog :=
  c.onShelf ns fun shelf => { shelf with tables := f shelf.tables }

/-- The catalog after a change that may be made. -/
def after (c : Catalog) : Change → Catalog
  | .createNamespace ns d => c.insert ns ⟨d, .empty⟩
  | .alterNamespace ns d => c.onShelf ns fun shelf => { shelf with definition := d }
  | .dropNamespace ns => c.erase ns
  | .createTable ns table d => c.onTables ns (·.insert table d)
  | .alterTable ns table d => c.onTables ns (·.insert table d)
  | .dropTable ns table => c.onTables ns (·.erase table)

/-- The catalog that changes make out of nothing. -/
def ofChanges (changes : List Change) : Catalog := changes.foldl after .empty

end Catalog

namespace Key

variable {limits : KeyLimits} {ns table key : String}

theorem ofNamespace_eq_ok_iff : ofNamespace limits ns = .ok key ↔
    (Slot.ofNamespace ns).Accepted limits ∧ (Slot.ofNamespace ns).key limits = key := by
  simp only [ofNamespace_eq, map_eq_ok, Name.check_eq_ok_iff, exists_const, Slot.Accepted]

theorem ofTable_eq_ok_iff : ofTable limits ns table = .ok key ↔
    (Slot.ofTable ns table).Accepted limits ∧ (Slot.ofTable ns table).key limits = key := by
  simp only [ofTable_eq, bind_eq_ok, map_eq_ok, Name.check_eq_ok_iff, exists_const, Slot.Accepted,
    and_assoc]

end Key

/-- The name of the namespace that an object is, or is in. -/
def Slot.space : Slot → String
  | ofNamespace ns => ns
  | ofTable ns _ => ns

/-- The bytes of the definition of an object in a namespace, if it is there. -/
def Shelf.data? (shelf : Shelf) : Slot → Option (List UInt8)
  | .ofNamespace _ => some shelf.definition.encode
  | .ofTable _ table => (shelf.tables.get? table).map TableDef.encode

/-- The bytes of the definition of an object, if it is there. -/
def Catalog.data? (c : Catalog) (slot : Slot) : Option (List UInt8) :=
  (c.get? slot.space).bind (·.data? slot)

namespace Change

/-- Whether what a change creates has a path that is accepted. -/
def placeable (id : Uuid) : Change → Except Error Unit
  | .createNamespace ns _ => Path.check (DefinitionPath.ofNamespace ns id)
  | .createTable ns table _ => Path.check (DefinitionPath.ofTable ns table id)
  | _ => .ok ()

/-- The object that a change is about. -/
def slot : Change → Slot
  | .createNamespace ns _ => .ofNamespace ns
  | .alterNamespace ns _ => .ofNamespace ns
  | .dropNamespace ns => .ofNamespace ns
  | .createTable ns table _ => .ofTable ns table
  | .alterTable ns table _ => .ofTable ns table
  | .dropTable ns table => .ofTable ns table

/-- The key of a change is that of its object, whose names are accepted. -/
theorem accepted_of_key {limits : KeyLimits} {change : Change} {key : String}
    (h : change.key limits = .ok key) :
    change.slot.Accepted limits ∧ change.slot.key limits = key := by
  cases change with
  | createNamespace ns d => exact Key.ofNamespace_eq_ok_iff.mp h
  | alterNamespace ns d => exact Key.ofNamespace_eq_ok_iff.mp h
  | dropNamespace ns => exact Key.ofNamespace_eq_ok_iff.mp h
  | createTable ns table d => exact Key.ofTable_eq_ok_iff.mp h
  | alterTable ns table d => exact Key.ofTable_eq_ok_iff.mp h
  | dropTable ns table => exact Key.ofTable_eq_ok_iff.mp h

theorem path_of_definition {change : Change} {data : List UInt8} {path : Uuid → String}
    (h : change.definition? = some (data, path)) : path = change.slot.path := by
  cases change with
  | createNamespace ns d => cases h; rfl
  | alterNamespace ns d => cases h; rfl
  | dropNamespace ns => cases h
  | createTable ns table d => cases h; rfl
  | alterTable ns table d => cases h; rfl
  | dropTable ns table => cases h

end Change

namespace Catalog

variable {limits : KeyLimits} {c : Catalog} {ns table : String} {change : Change} {shelf : Shelf}

/-! ### What a change needs -/

theorem shelf_eq_ok_iff : c.shelf limits ns = .ok shelf ↔
    Name.Accepted limits.ns ns ∧ c.get? ns = some shelf := by
  rw [Catalog.shelf, bind_eq_ok]
  simp only [Name.check_eq_ok_iff]
  constructor
  · rintro ⟨value, hName, hGet⟩
    split at hGet
    · next found hFound =>
      cases hGet
      exact ⟨hName, hFound⟩
    · cases hGet
  · rintro ⟨hName, hGet⟩
    refine ⟨(), hName, ?_⟩
    rw [hGet]

theorem tables_eq_ok_iff {tables : TextMap TableDef} : c.tables limits ns table = .ok tables ↔
    (Slot.ofTable ns table).Accepted limits ∧
      ∃ shelf, c.get? ns = some shelf ∧ shelf.tables = tables := by
  rw [Catalog.tables, bind_eq_ok]
  simp only [shelf_eq_ok_iff, map_eq_ok, Name.check_eq_ok_iff]
  constructor
  · rintro ⟨shelf, ⟨hNs, hGet⟩, value, hTable, rfl⟩
    exact ⟨⟨hNs, hTable⟩, shelf, hGet, rfl⟩
  · rintro ⟨⟨hNs, hTable⟩, shelf, hGet, rfl⟩
    exact ⟨shelf, ⟨hNs, hGet⟩, (), hTable, rfl⟩

theorem table_eq_ok_iff {d : TableDef} : c.table limits ns table = .ok d ↔
    (Slot.ofTable ns table).Accepted limits ∧
      ∃ shelf, c.get? ns = some shelf ∧ shelf.tables.get? table = some d := by
  rw [Catalog.table, bind_eq_ok]
  simp only [tables_eq_ok_iff]
  constructor
  · rintro ⟨tables, ⟨hAccepted, shelf, hGet, rfl⟩, hTable⟩
    split at hTable
    · next found hFound =>
      cases hTable
      exact ⟨hAccepted, shelf, hGet, hFound⟩
    · cases hTable
  · rintro ⟨hAccepted, shelf, hGet, hTable⟩
    refine ⟨_, ⟨hAccepted, shelf, hGet, rfl⟩, ?_⟩
    rw [hTable]

theorem vacant_of_allows_createNamespace {d : NamespaceDef}
    (h : c.allows limits (.createNamespace ns d) = .ok ()) :
    Name.Accepted limits.ns ns ∧ c.get? ns = none := by
  obtain ⟨_, hName, hVacant⟩ := bind_eq_ok.mp h
  refine ⟨Name.check_eq_ok_iff.mp hName, ?_⟩
  split at hVacant
  · cases hVacant
  · next hAbsent => simpa [TextMap.contains] using hAbsent

theorem bare_of_allows_dropNamespace (h : c.allows limits (.dropNamespace ns) = .ok ()) :
    Name.Accepted limits.ns ns ∧ ∃ shelf, c.get? ns = some shelf ∧
      ∀ table, shelf.tables.get? table = none := by
  obtain ⟨shelf, hShelf, hBare⟩ := bind_eq_ok.mp h
  obtain ⟨hName, hGet⟩ := shelf_eq_ok_iff.mp hShelf
  refine ⟨hName, shelf, hGet, fun table => ?_⟩
  split at hBare
  · next hNone =>
    cases hTable : shelf.tables.get? table with
    | none => rfl
    | some d =>
        have hMem := shelf.tables.mem_keys_iff.mpr ⟨d, hTable⟩
        rw [List.isEmpty_iff.mp hNone] at hMem
        cases hMem
  · cases hBare

theorem exists_shelf_of_allows_createTable {d : TableDef}
    (h : c.allows limits (.createTable ns table d) = .ok ()) :
    (Slot.ofTable ns table).Accepted limits ∧ ∃ shelf, c.get? ns = some shelf := by
  obtain ⟨tables, hTables, -⟩ := bind_eq_ok.mp h
  obtain ⟨hAccepted, shelf, hGet, -⟩ := tables_eq_ok_iff.mp hTables
  exact ⟨hAccepted, shelf, hGet⟩

/-- A change that may be made is about an object whose names are accepted. -/
theorem accepted_of_allows (h : c.allows limits change = .ok ()) : change.slot.Accepted limits := by
  cases change with
  | createNamespace ns d => exact (vacant_of_allows_createNamespace h).1
  | alterNamespace ns d =>
      obtain ⟨shelf, hShelf, -⟩ := map_eq_ok.mp h
      exact (shelf_eq_ok_iff.mp hShelf).1
  | dropNamespace ns => exact (bare_of_allows_dropNamespace h).1
  | createTable ns table d => exact (exists_shelf_of_allows_createTable h).1
  | alterTable ns table d =>
      obtain ⟨_, hTable, -⟩ := map_eq_ok.mp h
      exact (table_eq_ok_iff.mp hTable).1
  | dropTable ns table =>
      obtain ⟨_, hTable, -⟩ := map_eq_ok.mp h
      exact (table_eq_ok_iff.mp hTable).1

/-! ### What a change does -/

theorem onShelf_eq (h : c.get? ns = some shelf) (f : Shelf → Shelf) :
    c.onShelf ns f = c.insert ns (f shelf) := by
  rw [onShelf, h]

/-- A change within one namespace is known from the objects there. -/
theorem data?_of_space {next : Catalog} {data : Option (List UInt8)} (target : Slot)
    (hOther : ∀ name, name ≠ target.space → next.get? name = c.get? name)
    (hSame : ∀ slot, slot.space = target.space →
      (next.get? target.space).bind (·.data? slot) =
        if slot = target then data else (c.get? target.space).bind (·.data? slot)) (slot : Slot) :
    next.data? slot = if slot = target then data else c.data? slot := by
  by_cases hSpace : slot.space = target.space
  · rw [data?, data?, hSpace]
    exact hSame slot hSpace
  · have hSlot : slot ≠ target := fun h => hSpace (congrArg Slot.space h)
    rw [if_neg hSlot, data?, data?, hOther _ hSpace]

/-- Changing a namespace, but not its tables, leaves every other object alone. -/
theorem data?_of_tables {next : Catalog} {shelf? : Option Shelf}
    (hOther : ∀ name, name ≠ ns → next.get? name = c.get? name) (hNext : next.get? ns = shelf?)
    (hTables : ∀ name table, shelf?.bind (·.data? (.ofTable name table)) =
      (c.get? ns).bind (·.data? (.ofTable name table))) (slot : Slot) :
    next.data? slot = if slot = .ofNamespace ns then shelf?.map (·.definition.encode)
      else c.data? slot := by
  refine data?_of_space (.ofNamespace ns) hOther (fun slot hSpace => ?_) slot
  show (next.get? ns).bind _ = if _ then _ else (c.get? ns).bind _
  rw [hNext]
  cases slot with
  | ofNamespace name =>
      obtain rfl : name = ns := hSpace
      rw [if_pos rfl]
      cases shelf? <;> rfl
  | ofTable name table => rw [if_neg Slot.noConfusion, hTables]

/-- Changing a table leaves every other object alone. -/
theorem data?_onTables (hShelf : c.get? ns = some shelf) (f : TextMap TableDef → TextMap TableDef)
    (hOther : ∀ name, name ≠ table → (f shelf.tables).get? name = shelf.tables.get? name)
    (slot : Slot) :
    (c.onTables ns f).data? slot =
      if slot = .ofTable ns table then ((f shelf.tables).get? table).map TableDef.encode
      else c.data? slot := by
  rw [onTables, onShelf_eq hShelf]
  refine data?_of_space (.ofTable ns table) (fun name hName => c.get?_insert_of_ne hName _)
    (fun slot hSpace => ?_) slot
  show ((c.insert ns _).get? ns).bind _ = if _ then _ else (c.get? ns).bind _
  rw [TextMap.get?_insert_self, hShelf]
  cases slot with
  | ofNamespace name => rw [if_neg Slot.noConfusion]; rfl
  | ofTable name other =>
      obtain rfl : name = ns := hSpace
      by_cases hTable : other = table
      · rw [hTable, if_pos rfl]
        rfl
      · rw [if_neg fun h => hTable (Slot.ofTable.inj h).2]
        exact congrArg (Option.map TableDef.encode) (hOther other hTable)

/-- A change sets or removes the definition of the object that it is about, and leaves every other
object alone. -/
theorem data?_after (h : c.allows limits change = .ok ()) (slot : Slot) :
    (c.after change).data? slot =
      if slot = change.slot then change.definition?.map (·.1) else c.data? slot := by
  cases change with
  | createNamespace ns d =>
      have hVacant := (vacant_of_allows_createNamespace h).2
      refine data?_of_tables (fun name hName => c.get?_insert_of_ne hName _)
        (c.get?_insert_self ns _) (fun name table => ?_) slot
      rw [hVacant]
      rfl
  | alterNamespace ns d =>
      obtain ⟨shelf, hShelf, -⟩ := map_eq_ok.mp h
      have hGet := (shelf_eq_ok_iff.mp hShelf).2
      rw [after, onShelf_eq hGet]
      refine data?_of_tables (fun name hName => c.get?_insert_of_ne hName _)
        (c.get?_insert_self ns _) (fun name table => ?_) slot
      rw [hGet]
      rfl
  | dropNamespace ns =>
      obtain ⟨-, shelf, hGet, hBare⟩ := bare_of_allows_dropNamespace h
      refine data?_of_tables (fun name hName => c.get?_erase_of_ne hName)
        (c.get?_erase_self ns) (fun name table => ?_) slot
      rw [hGet, Option.bind_some, Shelf.data?, hBare]
      rfl
  | createTable ns table d =>
      obtain ⟨-, shelf, hGet⟩ := exists_shelf_of_allows_createTable h
      rw [after, data?_onTables hGet (·.insert table d) fun name hName =>
        shelf.tables.get?_insert_of_ne hName d, TextMap.get?_insert_self]
      rfl
  | alterTable ns table d =>
      obtain ⟨_, hTable, -⟩ := map_eq_ok.mp h
      obtain ⟨-, shelf, hGet, -⟩ := table_eq_ok_iff.mp hTable
      rw [after, data?_onTables hGet (·.insert table d) fun name hName =>
        shelf.tables.get?_insert_of_ne hName d, TextMap.get?_insert_self]
      rfl
  | dropTable ns table =>
      obtain ⟨_, hTable, -⟩ := map_eq_ok.mp h
      obtain ⟨-, shelf, hGet, -⟩ := table_eq_ok_iff.mp hTable
      rw [after, data?_onTables hGet (·.erase table) fun name hName =>
        shelf.tables.get?_erase_of_ne hName, TextMap.get?_erase_self]
      rfl

end Catalog

/-! ### Calls -/

/-- One call on a transaction: a question or a change. -/
inductive Transaction.Call where
  | ask (q : Query)
  | make (change : Change)

/-- Whether the definition that a call brings takes fewer bytes than a length can count. -/
def Transaction.Call.Fits : Transaction.Call → Prop
  | .ask _ => True
  | .make change =>
    ∀ data path, change.definition? = some (data, path) → data.length < UInt64.size

/-- A catalog under change, and how many identifiers were drawn for its definitions. -/
structure Ledger where
  catalog : Catalog
  drawn : Nat

namespace Ledger

variable (d : LakehouseDef) (uuid : Nat → Uuid)

/-- The answer to a call, and the catalog after it. A change that is made answers nothing, and a
call that fails changes nothing. -/
def call (l : Ledger) : Transaction.Call → Except Error (Option Reply) × Ledger
  | .ask q => ((l.catalog.answer d q).map some, l)
  | .make change =>
    match l.catalog.allows d.keyLimits change with
    | .error e => (.error e, l)
    | .ok () =>
      let drawn := if change.definition?.isSome then l.drawn + 1 else l.drawn
      match change.placeable (uuid l.drawn) with
      | .error e => (.error e, { l with drawn })
      | .ok () => (.ok none, ⟨l.catalog.after change, drawn⟩)

/-- The answers to calls that are made one after another. -/
def answers (l : Ledger) : List Transaction.Call → List (Except Error (Option Reply))
  | [] => []
  | call :: rest => (l.call d uuid call).1 :: answers (l.call d uuid call).2 rest

end Ledger

end SnapshotCatalog
