import SnapshotCatalog.Proofs.Catalog
import SnapshotCatalog.Proofs.Publications
/-!
Rows that depict a catalog. Every object of the catalog has a row, at its key, that names where its
definition lies, and there are no other rows. What is looked up among such rows is what the catalog
says, down to the errors, and a mutation of the rows makes them depict the changed catalog.
-/
namespace SnapshotCatalog

open Storage (Memory)
open Lakehouse

section Agrees

variable {α β γ δ : Type} {R : α → β → Prop} {S : γ → δ → Prop} {x : Except Error α}
  {y : Except Error β}

/-- Two computations that fail with one error, or deliver values that belong together. -/
inductive Agrees (R : α → β → Prop) : Except Error α → Except Error β → Prop where
  | ok {a : α} {b : β} (h : R a b) : Agrees R (.ok a) (.ok b)
  | error (e : Error) : Agrees R (.error e) (.error e)

theorem Agrees.bind {f : α → Except Error γ} {g : β → Except Error δ} (h : Agrees R x y)
    (hNext : ∀ a b, R a b → Agrees S (f a) (g b)) : Agrees S (x.bind f) (y.bind g) := by
  cases h with
  | ok hValues => exact hNext _ _ hValues
  | error e => exact .error e

theorem Agrees.exists_ok {a : α} (h : Agrees R (.ok a) y) : ∃ b, y = .ok b ∧ R a b := by
  cases h with
  | ok hValues => exact ⟨_, rfl, hValues⟩

theorem Agrees.map {f : α → γ} {g : β → δ} (h : Agrees R x y)
    (hNext : ∀ a b, R a b → S (f a) (g b)) : Agrees S (x.map f) (y.map g) := by
  cases h with
  | ok hValues => exact .ok (hNext _ _ hValues)
  | error e => exact .error e

/-- Computations that deliver the same values are the same. -/
theorem Agrees.return_eq {f : α → γ} {g : β → γ} (h : Agrees R x y)
    (hSame : ∀ a b, R a b → f a = g b) : (do return f (← x)) = y.map g := by
  cases h with
  | ok hValues => exact congrArg Except.ok (hSame _ _ hValues)
  | error e => rfl

end Agrees

/-- The bytes of a definition lie at a path, which is one that definitions may have. -/
structure Lies (site : Site) (m : Memory) (path : String) (data : List UInt8) : Prop where
  ne_hint : path ≠ Hint.path
  accepted : Path.check path = .ok ()
  stored : m.get? (site.resolve path) = some (.bytes data)
  fits : data.length < UInt64.size

theorem Lies.grows {site : Site} {m m' : Memory} {path : String} {data : List UInt8}
    (h : Lies site m path data) (hGrows : site.Grows m m') : Lies site m' path data :=
  ⟨h.ne_hint, h.accepted, hGrows _ _ (site.resolve_ne_hint h.ne_hint) h.stored, h.fits⟩

/-- The rows are those of the objects of a catalog, whose definitions lie where the rows say. -/
structure Depicts (site : Site) (m : Memory) (limits : KeyLimits) (rows : TextMap String)
    (c : Catalog) : Prop where
  row : ∀ slot : Slot, slot.Accepted limits →
    Option.Rel (Lies site m) (rows.get? (slot.key limits)) (c.data? slot)
  known : ∀ key path, rows.get? key = some path →
    ∃ slot : Slot, slot.Accepted limits ∧ key = slot.key limits
  accepted : ∀ slot data, c.data? slot = some data →
    slot.Accepted limits ∧ ∀ id, Path.check (slot.path id) = .ok ()

namespace Depicts

variable {site : Site} {m m' : Memory} {limits : KeyLimits} {rows : TextMap String} {c : Catalog}
  {r : Root} {ns table : String}

theorem empty (site : Site) (m : Memory) (limits : KeyLimits) :
    Depicts site m limits .empty .empty :=
  ⟨fun _ _ => .none, nofun, nofun⟩

theorem grows (h : Depicts site m limits rows c) (hGrows : site.Grows m m') :
    Depicts site m' limits rows c := by
  refine ⟨fun slot hSlot => ?_, h.known, h.accepted⟩
  have hRow := h.row slot hSlot
  generalize rows.get? (slot.key limits) = row at hRow ⊢
  generalize c.data? slot = data at hRow ⊢
  cases hRow with
  | none => exact .none
  | some hLies => exact .some (hLies.grows hGrows)

/-! ### Single rows -/

/-- An object that is there has a row that names where its definition lies. -/
theorem exists_row (h : Depicts site m limits rows c) {slot : Slot} {data : List UInt8}
    (hData : c.data? slot = some data) :
    ∃ path, rows.get? (slot.key limits) = some path ∧ Lies site m path data := by
  have hRow := h.row slot (h.accepted slot data hData).1
  rw [hData] at hRow
  cases hGet : rows.get? (slot.key limits) with
  | none =>
      rw [hGet] at hRow
      cases hRow
  | some path =>
      rw [hGet] at hRow
      cases hRow with
      | some hLies => exact ⟨path, rfl, hLies⟩

/-- An object that is not there has no row. -/
theorem get?_eq_none (h : Depicts site m limits rows c) {slot : Slot} (hSlot : slot.Accepted limits)
    (hData : c.data? slot = none) : rows.get? (slot.key limits) = none := by
  have hRow := h.row slot hSlot
  rw [hData] at hRow
  cases hGet : rows.get? (slot.key limits) with
  | none => rfl
  | some path =>
      rw [hGet] at hRow
      cases hRow

theorem contains_eq (h : Depicts site m limits rows c) {slot : Slot}
    (hSlot : slot.Accepted limits) :
    rows.contains (slot.key limits) = (c.data? slot).isSome := by
  cases hData : c.data? slot with
  | none =>
      rw [TextMap.contains, h.get?_eq_none hSlot hData]
      rfl
  | some data =>
      obtain ⟨path, hGet, -⟩ := h.exists_row hData
      rw [TextMap.contains, hGet]
      rfl

/-- A key with a row belongs to an object that is there. -/
theorem exists_slot (h : Depicts site m limits rows c) {key path : String}
    (hGet : rows.get? key = some path) :
    ∃ slot : Slot, slot.Accepted limits ∧ key = slot.key limits ∧ (c.data? slot).isSome = true := by
  obtain ⟨slot, hSlot, rfl⟩ := h.known key path hGet
  refine ⟨slot, hSlot, rfl, ?_⟩
  rw [← h.contains_eq hSlot, TextMap.contains, hGet]
  rfl

/-- Every key is that of a namespace or of a table. -/
theorem key_cases (h : Depicts site m limits rows c) {key path : String}
    (hGet : rows.get? key = some path) :
    (∃ ns, Key.ofNamespace limits ns = .ok key) ∨
      ∃ ns table, Key.ofTable limits ns table = .ok key := by
  obtain ⟨slot, hSlot, rfl⟩ := h.known key path hGet
  cases slot with
  | ofNamespace ns => exact .inl ⟨ns, Key.ofNamespace_eq_ok_iff.mpr ⟨hSlot, rfl⟩⟩
  | ofTable ns table => exact .inr ⟨ns, table, Key.ofTable_eq_ok_iff.mpr ⟨hSlot, rfl⟩⟩

/-! ### Rows with one beginning -/

/-- The keys that begin as those of one kind of objects do are the keys of these objects, in the
order of their names. -/
theorem keys_scan (h : Depicts site m limits rows c) (start : String) {names : List String}
    {object : String → Slot} (hNames : names.Pairwise Text.Before)
    (hHeld : ∀ name, name ∈ names ↔ (c.data? (object name)).isSome = true)
    (hOrder : ∀ name other, (object name).Accepted limits → (object other).Accepted limits →
      Text.Before name other → Text.Before ((object name).key limits) ((object other).key limits))
    (hStart : ∀ slot : Slot, slot.Accepted limits →
      (Text.startsWith (slot.key limits) start = true ↔ ∃ name, slot = object name)) :
    (rows.scan start).map (·.1) = names.map fun name => (object name).key limits := by
  have hAccepted {name : String} (hName : name ∈ names) : (object name).Accepted limits := by
    obtain ⟨data, hData⟩ := Option.isSome_iff_exists.mp ((hHeld name).mp hName)
    exact (h.accepted _ data hData).1
  rw [TextMap.scan_eq_withStart]
  refine Text.eq_of_sorted ?_ ?_ fun key => ?_
  · rw [List.pairwise_map]
    exact rows.sorted.sublist List.filter_sublist
  · rw [List.pairwise_map]
    exact hNames.imp_of_mem fun hName hOther =>
      hOrder _ _ (hAccepted hName) (hAccepted hOther)
  · rw [List.mem_map, List.mem_map]
    constructor
    · rintro ⟨⟨_, path⟩, hMem, rfl⟩
      obtain ⟨hEntry, hStarts⟩ := List.mem_filter.mp hMem
      obtain ⟨slot, hSlot, hKey, hData⟩ := h.exists_slot (rows.get?_eq_some_iff.mpr hEntry)
      dsimp only at hKey hStarts
      rw [hKey] at hStarts
      obtain ⟨name, rfl⟩ := (hStart slot hSlot).mp hStarts
      exact ⟨name, (hHeld name).mpr hData, hKey.symm⟩
    · rintro ⟨name, hName, rfl⟩
      obtain ⟨data, hData⟩ := Option.isSome_iff_exists.mp ((hHeld name).mp hName)
      obtain ⟨path, hGet, -⟩ := h.exists_row hData
      refine ⟨(_, path), List.mem_filter.mpr ⟨rows.get?_eq_some_iff.mp hGet, ?_⟩, rfl⟩
      exact (hStart _ (hAccepted hName)).mpr ⟨name, rfl⟩

/-- Names are read off their keys. -/
theorem mapM_name {f : String → Except Error String} {g : String → String}
    {entries : List (String × String)} {names : List String}
    (hKeys : entries.map (·.1) = names.map g) (hName : ∀ name ∈ names, f (g name) = .ok name) :
    (entries.mapM fun entry => f entry.1) = .ok names := by
  induction names generalizing entries with
  | nil =>
      rw [List.map_eq_nil_iff.mp hKeys]
      rfl
  | cons name rest ih =>
      obtain ⟨entry, others, rfl, hEntry, hOthers⟩ := List.map_eq_cons_iff.mp hKeys
      rw [List.mapM_cons, hEntry, hName name List.mem_cons_self,
        ih hOthers fun name hMem => hName name (List.mem_cons_of_mem _ hMem)]
      rfl

theorem data?_ofNamespace (c : Catalog) (ns : String) :
    c.data? (.ofNamespace ns) = (c.get? ns).map (·.definition.encode) := by
  show (c.get? ns).bind _ = _
  cases c.get? ns <;> rfl

theorem data?_ofTable {shelf : Shelf} (hShelf : c.get? ns = some shelf) (table : String) :
    c.data? (.ofTable ns table) = (shelf.tables.get? table).map TableDef.encode := by
  show (c.get? ns).bind _ = _
  rw [hShelf]
  rfl

/-- A row at the key of a namespace is the row of that namespace, which is there. -/
theorem shelf_of_row (h : Depicts site m limits rows c) {key path : String}
    (hKey : Key.ofNamespace limits ns = .ok key) (hGet : rows.get? key = some path) :
    ∃ shelf, c.shelf limits ns = .ok shelf ∧ Lies site m path shelf.definition.encode := by
  obtain ⟨hName, rfl⟩ := Key.ofNamespace_eq_ok_iff.mp hKey
  have hRow := h.row (.ofNamespace ns) hName
  rw [hGet, data?_ofNamespace] at hRow
  cases hShelf : c.get? ns with
  | none =>
      rw [hShelf] at hRow
      cases hRow
  | some shelf =>
      rw [hShelf] at hRow
      cases hRow with
      | some hLies => exact ⟨shelf, Catalog.shelf_eq_ok_iff.mpr ⟨hName, hShelf⟩, hLies⟩

/-- A row at the key of a table is the row of that table, which is there together with its
namespace. -/
theorem table_of_row (h : Depicts site m limits rows c) {key path : String}
    (hKey : Key.ofTable limits ns table = .ok key) (hGet : rows.get? key = some path) :
    ∃ shelf d, c.shelf limits ns = .ok shelf ∧ shelf.tables.get? table = some d ∧
      Lies site m path d.encode := by
  obtain ⟨hNames, rfl⟩ := Key.ofTable_eq_ok_iff.mp hKey
  have hRow := h.row (.ofTable ns table) hNames
  rw [hGet] at hRow
  cases hShelf : c.get? ns with
  | none =>
      rw [Catalog.data?, Slot.space, hShelf] at hRow
      cases hRow
  | some shelf =>
      rw [data?_ofTable hShelf] at hRow
      cases hTable : shelf.tables.get? table with
      | none =>
          rw [hTable] at hRow
          cases hRow
      | some d =>
          rw [hTable] at hRow
          cases hRow with
          | some hLies =>
              exact ⟨shelf, d, Catalog.shelf_eq_ok_iff.mpr ⟨hNames.1, hShelf⟩, hTable, hLies⟩

theorem namespaceNames_eq (h : Depicts site m limits r.rows c) :
    namespaceNames limits r = .ok c.keys := by
  have hHeld (ns : String) : ns ∈ c.keys ↔ (c.data? (.ofNamespace ns)).isSome = true := by
    rw [TextMap.mem_keys_iff, data?_ofNamespace, Option.isSome_map, Option.isSome_iff_exists]
  have hKeys := h.keys_scan Key.namespaceMark c.sorted_keys hHeld
    (fun _ _ => Slot.before_key_ofNamespace) fun slot _ => by
      cases slot with
      | ofNamespace ns => exact ⟨fun _ => ⟨ns, rfl⟩, fun _ => Slot.startsWith_key_ofNamespace⟩
      | ofTable ns table =>
          exact ⟨fun hStarts => absurd hStarts Slot.not_startsWith_key_ofTable, nofun⟩
  refine mapM_name hKeys fun ns hMem => ?_
  obtain ⟨data, hData⟩ := Option.isSome_iff_exists.mp ((hHeld ns).mp hMem)
  exact Key.namespaceName_key (h.accepted _ data hData).1

/-- The rows whose keys begin as those of the tables of a namespace do are the rows of its
tables. -/
theorem keys_tables (h : Depicts site m limits r.rows c) {shelf : Shelf}
    (hNs : Name.Accepted limits.ns ns) (hShelf : c.get? ns = some shelf) :
    (r.rowsWithStart (Key.tableFront limits ns)).map (·.1) =
      shelf.tables.keys.map fun table => (Slot.ofTable ns table).key limits := by
  have hHeld (table : String) :
      table ∈ shelf.tables.keys ↔ (c.data? (.ofTable ns table)).isSome = true := by
    rw [TextMap.mem_keys_iff, data?_ofTable hShelf, Option.isSome_map, Option.isSome_iff_exists]
  refine h.keys_scan _ shelf.tables.sorted_keys hHeld (fun _ _ => Slot.before_key_ofTable)
    fun slot hSlot => ?_
  cases slot with
  | ofNamespace other =>
      exact ⟨fun hStarts => absurd hStarts Slot.not_startsWith_key_ofNamespace, nofun⟩
  | ofTable other table =>
      rw [Slot.startsWith_key_ofTable hSlot.1 hNs]
      constructor
      · rintro rfl
        exact ⟨table, rfl⟩
      · rintro ⟨_, hSame⟩
        exact (Slot.ofTable.inj hSame).1

/-! ### Lookups -/

theorem agrees_ofNamespace (limits : KeyLimits) (ns : String) :
    Agrees (fun key _ => Name.Accepted limits.ns ns ∧ key = (Slot.ofNamespace ns).key limits)
      (Key.ofNamespace limits ns) (Name.check "namespace" ns limits.ns) := by
  rw [Key.ofNamespace_eq]
  cases hCheck : Name.check "namespace" ns limits.ns with
  | ok value => exact .ok ⟨Name.check_eq_ok_iff.mp hCheck, rfl⟩
  | error e => exact .error e

/-- A namespace is looked up as in the catalog, and the path of its definition is found. -/
theorem agrees_existingNamespace (h : Depicts site m limits r.rows c) (ns : String) :
    Agrees (fun found shelf => Name.Accepted limits.ns ns ∧ c.get? ns = some shelf ∧
        found.1 = (Slot.ofNamespace ns).key limits ∧ Lies site m found.2 shelf.definition.encode)
      (existingNamespace limits r ns) (c.shelf limits ns) := by
  apply (agrees_ofNamespace limits ns).bind
  rintro _ _ ⟨hName, rfl⟩
  have hSlot : (Slot.ofNamespace ns).Accepted limits := hName
  have hData := data?_ofNamespace c ns
  cases hShelf : c.get? ns with
  | none =>
      rw [hShelf] at hData
      rw [existing, h.get?_eq_none hSlot hData]
      exact .error _
  | some shelf =>
      rw [hShelf] at hData
      obtain ⟨path, hGet, hLies⟩ := h.exists_row hData
      rw [existing, hGet]
      exact .ok ⟨hName, rfl, rfl, hLies⟩

/-- The key of a table is made once its namespace is found, as in the catalog. -/
theorem agrees_tableKey (h : Depicts site m limits r.rows c) (ns table : String) :
    Agrees (fun key tables => (Slot.ofTable ns table).Accepted limits ∧
        key = (Slot.ofTable ns table).key limits ∧
        ∃ shelf, c.get? ns = some shelf ∧ shelf.tables = tables)
      (tableKey limits r ns table) (c.tables limits ns table) := by
  apply (h.agrees_existingNamespace ns).bind
  rintro _ shelf ⟨hNs, hShelf, -⟩
  have hCheck : Name.check "namespace" ns limits.ns = .ok () := Name.check_eq_ok_iff.mpr hNs
  rw [Key.ofTable_eq, hCheck]
  cases hTable : Name.check "table" table limits.table with
  | ok value => exact .ok ⟨⟨hNs, Name.check_eq_ok_iff.mp hTable⟩, rfl, shelf, hShelf, rfl⟩
  | error e => exact .error e

/-- A table is looked up as in the catalog, and the path of its definition is found. -/
theorem agrees_existingTable (h : Depicts site m limits r.rows c) (ns table : String) :
    Agrees (fun found d => found.1 = (Slot.ofTable ns table).key limits ∧
        Lies site m found.2 d.encode)
      (existingTable limits r ns table) (c.table limits ns table) := by
  apply (h.agrees_tableKey ns table).bind
  rintro _ _ ⟨hSlot, rfl, shelf, hShelf, rfl⟩
  have hData := data?_ofTable hShelf table
  cases hTable : shelf.tables.get? table with
  | none =>
      rw [hTable] at hData
      rw [existing, h.get?_eq_none hSlot hData]
      exact .error _
  | some d =>
      rw [hTable] at hData
      obtain ⟨path, hGet, hLies⟩ := h.exists_row hData
      rw [existing, hGet]
      exact .ok ⟨rfl, hLies⟩

theorem tableNames_eq (h : Depicts site m limits r.rows c) (ns : String) :
    tableNames limits r ns = (c.shelf limits ns).map fun shelf => shelf.tables.keys := by
  have hAgrees := h.agrees_existingNamespace ns
  rw [tableNames]
  generalize c.shelf limits ns = shelf? at hAgrees ⊢
  generalize existingNamespace limits r ns = found at hAgrees ⊢
  cases hAgrees with
  | error e => rfl
  | ok hFound =>
      obtain ⟨hNs, hShelf, -⟩ := hFound
      have hCheck : Name.check "namespace" ns limits.ns = .ok () := Name.check_eq_ok_iff.mpr hNs
      have hStart : Key.tableStart limits ns = .ok (Key.tableFront limits ns) := by
        rw [Key.tableStart_eq, hCheck]
        rfl
      rw [hStart]
      refine mapM_name (h.keys_tables hNs hShelf) fun table hMem => ?_
      obtain ⟨d, hTable⟩ := (TextMap.mem_keys_iff _).mp hMem
      have hData := data?_ofTable hShelf table
      rw [hTable] at hData
      exact Key.tableName_key (h.accepted _ _ hData).1

/-! ### Changes -/

theorem contains_ofNamespace (h : Depicts site m limits rows c) (hNs : Name.Accepted limits.ns ns) :
    rows.contains ((Slot.ofNamespace ns).key limits) = c.contains ns := by
  have hSlot : (Slot.ofNamespace ns).Accepted limits := hNs
  rw [h.contains_eq hSlot, data?_ofNamespace, Option.isSome_map, TextMap.contains]

theorem contains_ofTable (h : Depicts site m limits rows c) {shelf : Shelf}
    (hSlot : (Slot.ofTable ns table).Accepted limits) (hShelf : c.get? ns = some shelf) :
    rows.contains ((Slot.ofTable ns table).key limits) = shelf.tables.contains table := by
  rw [h.contains_eq hSlot, data?_ofTable hShelf, Option.isSome_map, TextMap.contains]

theorem isEmpty_rowsWithStart (h : Depicts site m limits r.rows c) {shelf : Shelf}
    (hNs : Name.Accepted limits.ns ns) (hShelf : c.get? ns = some shelf) :
    (r.rowsWithStart (Key.tableFront limits ns)).isEmpty = shelf.tables.keys.isEmpty := by
  have hKeys := congrArg List.isEmpty (h.keys_tables hNs hShelf)
  rwa [List.isEmpty_map, List.isEmpty_map] at hKeys

/-- A change may be made where the catalog allows it, and is then about the row of its object. -/
theorem agrees_target (h : Depicts site m limits r.rows c) (change : Change) :
    Agrees (fun key _ => key = change.slot.key limits) (change.target limits r)
      (c.allows limits change) := by
  cases change with
  | createNamespace ns d =>
      apply (agrees_ofNamespace limits ns).bind
      rintro _ _ ⟨hName, rfl⟩
      rw [h.contains_ofNamespace hName]
      cases c.contains ns with
      | true => exact .error _
      | false => exact .ok rfl
  | alterNamespace ns d =>
      apply (h.agrees_existingNamespace ns).map
      rintro _ _ ⟨-, -, hKey, -⟩
      exact hKey
  | dropNamespace ns =>
      apply (h.agrees_existingNamespace ns).bind
      rintro ⟨_, path⟩ shelf ⟨hName, hShelf, rfl, -⟩
      have hCheck : Name.check "namespace" ns limits.ns = .ok () := Name.check_eq_ok_iff.mpr hName
      rw [Key.tableStart_eq, hCheck]
      show Agrees _ (if (r.rowsWithStart (Key.tableFront limits ns)).isEmpty then _ else _) _
      rw [h.isEmpty_rowsWithStart hName hShelf]
      cases shelf.tables.keys.isEmpty with
      | true => exact .ok rfl
      | false => exact .error _
  | createTable ns table d =>
      apply (h.agrees_tableKey ns table).bind
      rintro _ _ ⟨hSlot, rfl, shelf, hShelf, rfl⟩
      rw [h.contains_ofTable hSlot hShelf]
      cases shelf.tables.contains table with
      | true => exact .error _
      | false => exact .ok rfl
  | alterTable ns table d =>
      apply (h.agrees_existingTable ns table).map
      rintro _ _ ⟨hKey, -⟩
      exact hKey
  | dropTable ns table =>
      apply (h.agrees_existingTable ns table).map
      rintro _ _ ⟨hKey, -⟩
      exact hKey

theorem get?_touch (mutation : Mutation) (r : Root) (key other : String) :
    (mutation.touch r key).rows.get? other =
      if other = key then mutation.place? else r.rows.get? other := by
  unfold Mutation.touch
  by_cases hSame : other = key
  · subst hSame
    rw [if_pos rfl]
    split
    · next place hPlace => rw [Root.rows_withRow, TextMap.get?_insert_self, hPlace]
    · next hPlace => rw [Root.rows_withoutRow, TextMap.get?_erase_self, hPlace]
  · rw [if_neg hSame]
    split
    · rw [Root.rows_withRow, TextMap.get?_insert_of_ne _ hSame]
    · rw [Root.rows_withoutRow, TextMap.get?_erase_of_ne _ hSame]

/-- The definition that a mutation brings lies where the mutation says. -/
theorem lies_place? {mutation : Mutation} (hStored : mutation.Stored site m) :
    Option.Rel (Lies site m) mutation.place? (mutation.change.definition?.map (·.1)) := by
  rw [Mutation.place?]
  cases hDefinition : mutation.change.definition? with
  | none => exact .none
  | some definition =>
      obtain ⟨data, path⟩ := definition
      obtain ⟨hFits, id, hDrawn, hCheck, hGet⟩ := hStored data path hDefinition
      rw [hDrawn]
      exact .some ⟨(Change.bears_of_definition hDefinition id).ne_hint, hCheck, hGet, hFits⟩

/-- A mutation of the rows makes them depict the changed catalog. -/
theorem touch (h : Depicts site m limits r.rows c) {mutation : Mutation}
    (hAllowed : c.allows limits mutation.change = .ok ()) (hStored : mutation.Stored site m) :
    Depicts site m limits (mutation.touch r (mutation.change.slot.key limits)).rows
      (c.after mutation.change) := by
  have hTarget := Catalog.accepted_of_allows hAllowed
  refine ⟨fun slot hSlot => ?_, fun key path hGet => ?_, fun slot data hData => ?_⟩
  · rw [get?_touch, Catalog.data?_after hAllowed]
    by_cases hSame : slot = mutation.change.slot
    · rw [hSame, if_pos rfl, if_pos rfl]
      exact lies_place? hStored
    · rw [if_neg hSame, if_neg fun hKey => hSame (Slot.key_injective hSlot hTarget hKey)]
      exact h.row slot hSlot
  · rw [get?_touch] at hGet
    split at hGet
    · next hKey => exact ⟨_, hTarget, hKey⟩
    · exact h.known key path hGet
  · rw [Catalog.data?_after hAllowed] at hData
    split at hData
    · next hSame =>
      obtain ⟨⟨_, path⟩, hDefinition, rfl⟩ := Option.map_eq_some_iff.mp hData
      obtain ⟨-, id, -, hCheck, -⟩ := hStored _ path hDefinition
      rw [Change.path_of_definition hDefinition] at hCheck
      rw [hSame]
      exact ⟨hTarget, fun other => (Slot.check_path_congr hTarget id other).mp hCheck⟩
    · exact h.accepted slot data hData

/-- Mutations of the rows, one on top of the other, make them depict what the changes make of the
catalog. -/
theorem replay (h : Depicts site m limits rows c) {past : List Mutation} {last : TextMap String}
    (hStored : ∀ mutation ∈ past, mutation.Stored site m)
    (hReplay : SnapshotCatalog.replay limits rows past = .ok last) :
    Depicts site m limits last ((past.map (·.change)).foldl Catalog.after c) := by
  induction past generalizing rows c with
  | nil =>
      cases hReplay
      exact h
  | cons mutation rest ih =>
      obtain ⟨next, hNext, hRest⟩ := bind_eq_ok.mp hReplay
      obtain ⟨r, hApply, rfl⟩ := map_eq_ok.mp hNext
      obtain ⟨key, hKey, rfl⟩ := map_eq_ok.mp hApply
      have hRows : Depicts site m limits ({ Root.new "" with rows } : Root).rows c := h
      have hAgrees := hRows.agrees_target mutation.change
      rw [hKey] at hAgrees
      obtain ⟨_, hAllowed, rfl⟩ := hAgrees.exists_ok
      exact ih (hRows.touch hAllowed (hStored mutation List.mem_cons_self))
        (fun other hMem => hStored other (List.mem_cons_of_mem _ hMem)) hRest

end Depicts

end SnapshotCatalog
