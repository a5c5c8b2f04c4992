import SnapshotCatalog.Proofs.Operations
import SnapshotCatalog.Proofs.Paths
/-!
What lookups and changes do to a root. A change touches one row, whose key bears a mark, and keeps
the lakehouse definition; whether it may be made is decided by the rows alone. No lookup fails with
an error that invites a retry.
-/
namespace SnapshotCatalog

section Except

variable {α β : Type}

theorem bind_eq_ok {x : Except Error α} {f : α → Except Error β} {b : β} :
    x.bind f = .ok b ↔ ∃ a, x = .ok a ∧ f a = .ok b := by
  cases x with
  | ok a => simp [Except.bind]
  | error e => simp [Except.bind]

theorem map_eq_ok {x : Except Error α} {f : α → β} {b : β} :
    x.map f = .ok b ↔ ∃ a, x = .ok a ∧ f a = b := by
  cases x with
  | ok a => simp [Except.map]
  | error e => simp [Except.map]

theorem toOption_eq_some {x : Except Error α} {a : α} : x.toOption = some a ↔ x = .ok a := by
  cases x with
  | ok b => simp [Except.toOption]
  | error e => simp [Except.toOption]

/-- A computation that does not fail with an error which invites a retry. -/
def Calm (x : Except Error α) : Prop := ∀ e, x = .error e → e.isRetryable = false

theorem calm_ok (a : α) : Calm (.ok a) := nofun

theorem calm_error {e : Error} (h : e.isRetryable = false) : Calm (.error e : Except Error α) := by
  rintro _ ⟨⟩
  exact h

theorem Calm.bind {x : Except Error α} {f : α → Except Error β} (h : Calm x)
    (hNext : ∀ a, Calm (f a)) : Calm (x.bind f) := by
  cases x with
  | ok a => exact hNext a
  | error e => exact calm_error (h e rfl)

theorem Calm.map {x : Except Error α} (h : Calm x) (f : α → β) : Calm (x.map f) := by
  cases x with
  | ok a => exact calm_ok (f a)
  | error e => exact calm_error (h e rfl)

theorem calm_return {x : Except Error α} (h : Calm x) (f : α → β) :
    Calm (do return f (← x)) :=
  h.bind fun a => calm_ok (f a)

theorem calm_mapM {f : α → Except Error β} (h : ∀ a, Calm (f a)) (list : List α) :
    Calm (list.mapM f) := by
  induction list with
  | nil => exact calm_ok []
  | cons a rest ih =>
      rw [List.mapM_cons]
      exact (h a).bind fun b => ih.bind fun bs => calm_ok (b :: bs)

end Except

namespace Lakehouse

variable (limits : KeyLimits) (r : Root) (ns table : String)

theorem calm_nameCheck (kind name : String) (limit : Nat) : Calm (Name.check kind name limit) := by
  rw [Name.check]
  split
  · exact calm_error rfl
  · exact calm_ok ()

theorem calm_ofNamespace : Calm (Key.ofNamespace limits ns) :=
  (calm_nameCheck _ _ _).bind fun _ => calm_ok _

theorem calm_tableStart : Calm (Key.tableStart limits ns) :=
  (calm_nameCheck _ _ _).bind fun _ => calm_ok _

theorem calm_ofTable : Calm (Key.ofTable limits ns table) :=
  (calm_tableStart limits ns).bind fun _ => (calm_nameCheck _ _ _).bind fun _ => calm_ok _

theorem calm_existing (key kind id : String) : Calm (existing r key kind id) := by
  rw [existing]
  split
  · exact calm_ok _
  · exact calm_error rfl

theorem calm_existingNamespace : Calm (existingNamespace limits r ns) :=
  (calm_ofNamespace limits ns).bind fun _ => (calm_existing r _ _ _).bind fun _ => calm_ok _

theorem calm_vacantNamespace : Calm (vacantNamespace limits r ns) := by
  refine (calm_ofNamespace limits ns).bind fun key => ?_
  split
  · exact calm_error rfl
  · exact calm_ok key

theorem calm_emptyNamespace : Calm (emptyNamespace limits r ns) := by
  refine (calm_existingNamespace limits r ns).bind fun found =>
    (calm_tableStart limits ns).bind fun start => ?_
  split
  · exact calm_ok _
  · exact calm_error rfl

theorem calm_tableKey : Calm (tableKey limits r ns table) :=
  (calm_existingNamespace limits r ns).bind fun _ => calm_ofTable limits ns table

theorem calm_vacantTable : Calm (vacantTable limits r ns table) := by
  refine (calm_tableKey limits r ns table).bind fun key => ?_
  split
  · exact calm_error rfl
  · exact calm_ok key

theorem calm_existingTable : Calm (existingTable limits r ns table) :=
  (calm_tableKey limits r ns table).bind fun _ => (calm_existing r _ _ _).bind fun _ => calm_ok _

theorem calm_namespaceName (key : String) : Calm (Key.namespaceName limits key) := by
  unfold Key.namespaceName
  dsimp only
  split
  · exact calm_ok _
  · exact calm_error rfl

theorem calm_tableName (key : String) : Calm (Key.tableName limits key) := by
  unfold Key.tableName
  dsimp only
  split
  · exact calm_ok _
  · exact calm_error rfl

theorem calm_namespaceNames : Calm (namespaceNames limits r) :=
  calm_mapM (fun (row : String × String) => calm_namespaceName limits row.1) _

theorem calm_tableNames : Calm (tableNames limits r ns) :=
  (calm_existingNamespace limits r ns).bind fun _ => (calm_tableStart limits ns).bind fun _ =>
    calm_mapM (fun (row : String × String) => calm_tableName limits row.1) _

end Lakehouse

open Lakehouse

namespace Root

variable (r : Root) (key value : String)

theorem rows_mutableCopy : r.mutableCopy.rows = r.rows := by
  unfold mutableCopy
  split <;> rfl

theorem lakehouseDefPath_mutableCopy : r.mutableCopy.lakehouseDefPath = r.lakehouseDefPath := by
  unfold mutableCopy
  split <;> rfl

@[simp] theorem rows_withRow : (r.withRow key value).rows = r.rows.insert key value :=
  congrArg (TextMap.insert · key value) r.rows_mutableCopy

@[simp] theorem rows_withoutRow : (r.withoutRow key).rows = r.rows.erase key :=
  congrArg (TextMap.erase · key) r.rows_mutableCopy

@[simp] theorem lakehouseDefPath_withRow :
    (r.withRow key value).lakehouseDefPath = r.lakehouseDefPath :=
  r.lakehouseDefPath_mutableCopy

@[simp] theorem lakehouseDefPath_withoutRow :
    (r.withoutRow key).lakehouseDefPath = r.lakehouseDefPath :=
  r.lakehouseDefPath_mutableCopy

/-- Every row describes an object of the catalog, and none the root itself. -/
def Marked (r : Root) : Prop := ∀ entry ∈ r.rows.entries, Key.hasMark entry.1 = true

/-- Every row names the path of a definition. -/
def Placed (r : Root) : Prop := ∀ entry ∈ r.rows.entries, ∃ id, DefinitionPath.Bears id entry.2

end Root

namespace Key

variable {limits : KeyLimits} {ns table key : String}

theorem hasMark_of_ofNamespace (h : ofNamespace limits ns = .ok key) : hasMark key = true := by
  obtain ⟨-, -, h⟩ := bind_eq_ok.mp h
  cases h
  simp [hasMark, Text.startsWith_append]

theorem hasMark_of_ofTable (h : ofTable limits ns table = .ok key) : hasMark key = true := by
  obtain ⟨start, hStart, h⟩ := bind_eq_ok.mp h
  obtain ⟨-, -, hStart⟩ := bind_eq_ok.mp hStart
  obtain ⟨-, -, h⟩ := bind_eq_ok.mp h
  cases hStart
  cases h
  simp [hasMark, String.append_assoc, Text.startsWith_append]

end Key

namespace Change

variable {limits : KeyLimits} {r : Root} {key : String}

theorem ofNamespace_of_existingNamespace {ns : String} {found : String × String}
    (h : existingNamespace limits r ns = .ok found) : Key.ofNamespace limits ns = .ok found.1 := by
  obtain ⟨key, hKey, h⟩ := bind_eq_ok.mp h
  obtain ⟨path, -, h⟩ := bind_eq_ok.mp h
  cases h
  exact hKey

theorem ofTable_of_tableKey {ns table : String} (h : tableKey limits r ns table = .ok key) :
    Key.ofTable limits ns table = .ok key := by
  obtain ⟨-, -, h⟩ := bind_eq_ok.mp h
  exact h

theorem tableKey_of_existingTable {ns table : String} {found : String × String}
    (h : existingTable limits r ns table = .ok found) :
    tableKey limits r ns table = .ok found.1 := by
  obtain ⟨key, hKey, h⟩ := bind_eq_ok.mp h
  obtain ⟨path, -, h⟩ := bind_eq_ok.mp h
  cases h
  exact hKey

/-- An admitted change is about the row of its object. -/
theorem key_of_target {c : Change} (h : c.target limits r = .ok key) :
    c.key limits = .ok key := by
  cases c with
  | createNamespace ns d =>
      obtain ⟨vacant, hKey, h⟩ := bind_eq_ok.mp h
      split at h
      · cases h
      · cases h
        exact hKey
  | alterNamespace ns d =>
      obtain ⟨found, hFound, rfl⟩ := map_eq_ok.mp h
      exact ofNamespace_of_existingNamespace hFound
  | dropNamespace ns =>
      obtain ⟨found, hFound, h⟩ := bind_eq_ok.mp h
      obtain ⟨start, -, h⟩ := bind_eq_ok.mp h
      split at h
      · cases h
        exact ofNamespace_of_existingNamespace hFound
      · cases h
  | createTable ns table d =>
      obtain ⟨vacant, hKey, h⟩ := bind_eq_ok.mp h
      split at h
      · cases h
      · cases h
        exact ofTable_of_tableKey hKey
  | alterTable ns table d =>
      obtain ⟨found, hFound, rfl⟩ := map_eq_ok.mp h
      exact ofTable_of_tableKey (tableKey_of_existingTable hFound)
  | dropTable ns table =>
      obtain ⟨found, hFound, rfl⟩ := map_eq_ok.mp h
      exact ofTable_of_tableKey (tableKey_of_existingTable hFound)

theorem hasMark_of_key {c : Change} (h : c.key limits = .ok key) : Key.hasMark key = true := by
  cases c with
  | createNamespace ns d => exact Key.hasMark_of_ofNamespace h
  | alterNamespace ns d => exact Key.hasMark_of_ofNamespace h
  | dropNamespace ns => exact Key.hasMark_of_ofNamespace h
  | createTable ns table d => exact Key.hasMark_of_ofTable h
  | alterTable ns table d => exact Key.hasMark_of_ofTable h
  | dropTable ns table => exact Key.hasMark_of_ofTable h

theorem calm_target (c : Change) (limits : KeyLimits) (r : Root) : Calm (c.target limits r) := by
  cases c with
  | createNamespace ns d => exact calm_vacantNamespace limits r ns
  | alterNamespace ns d => exact (calm_existingNamespace limits r ns).map _
  | dropNamespace ns => exact calm_emptyNamespace limits r ns
  | createTable ns table d => exact calm_vacantTable limits r ns table
  | alterTable ns table d => exact (calm_existingTable limits r ns table).map _
  | dropTable ns table => exact (calm_existingTable limits r ns table).map _

theorem bears_of_definition {c : Change} {data : List UInt8} {path : Uuid → String}
    (h : c.definition? = some (data, path)) (id : Uuid) : DefinitionPath.Bears id (path id) := by
  cases c with
  | createNamespace ns d => cases h; exact DefinitionPath.bears_ofNamespace ns id
  | alterNamespace ns d => cases h; exact DefinitionPath.bears_ofNamespace ns id
  | dropNamespace ns => cases h
  | createTable ns table d => cases h; exact DefinitionPath.bears_ofTable ns table id
  | alterTable ns table d => cases h; exact DefinitionPath.bears_ofTable ns table id
  | dropTable ns table => cases h

/-- Whether a change may be made is decided by the rows alone. -/
theorem target_congr {other : Root} (h : r.rows = other.rows) (c : Change) (limits : KeyLimits) :
    c.target limits r = c.target limits other := by
  obtain ⟨_, _, _, _, _, rows⟩ := r
  obtain ⟨_, _, _, _, _, _⟩ := other
  cases h
  cases c <;> rfl

/-- A change looks up the row that it is about and then touches it. -/
theorem program_eq (c : Change) (site : Site) (t : Transaction) :
    c.program site t = (look site t c.target).bind fun key => c.perform site t key := by
  have hMap {α β : Type} (question : KeyLimits → Root → Except Error α) (f : α → β)
      (next : β → Program Transaction) :
      (look site t fun limits r => (question limits r).map f).bind next =
        (look site t question).bind fun value => next (f value) := by
    show ((keyLimits site t).bind _).bind next = ((keyLimits site t).bind _).bind _
    rw [Program.bind_assoc, Program.bind_assoc]
    congr 1
    funext limits
    dsimp only
    cases question limits t.running with
    | ok value => rfl
    | error e => rfl
  cases c with
  | createNamespace ns d => rfl
  | alterNamespace ns d =>
      exact (hMap (existingNamespace · · ns) (·.1) fun key =>
        perform site t key (.alterNamespace ns d)).symm
  | dropNamespace ns => rfl
  | createTable ns table d => rfl
  | alterTable ns table d =>
      exact (hMap (existingTable · · ns table) (·.1) fun key =>
        perform site t key (.alterTable ns table d)).symm
  | dropTable ns table =>
      exact (hMap (existingTable · · ns table) (·.1) fun key =>
        perform site t key (.dropTable ns table)).symm

/-- A change either brings a definition, which is stored at a fresh path, or removes a row. -/
theorem perform_cases (c : Change) :
    (c.definition? = none ∧ ∀ site t key, c.perform site t key = .done (remove t key)) ∨
      ∃ (α : Type) (_ : Definition α) (x : α) (path : Uuid → String),
        c.definition? = some (Definition.encode x, path) ∧
          ∀ site t key, c.perform site t key = define site t key path x := by
  cases c with
  | createNamespace ns d => exact .inr ⟨_, _, d, _, rfl, fun _ _ _ => rfl⟩
  | alterNamespace ns d => exact .inr ⟨_, _, d, _, rfl, fun _ _ _ => rfl⟩
  | dropNamespace ns => exact .inl ⟨rfl, fun _ _ _ => rfl⟩
  | createTable ns table d => exact .inr ⟨_, _, d, _, rfl, fun _ _ _ => rfl⟩
  | alterTable ns table d => exact .inr ⟨_, _, d, _, rfl, fun _ _ _ => rfl⟩
  | dropTable ns table => exact .inl ⟨rfl, fun _ _ _ => rfl⟩

end Change

namespace Mutation

variable {limits : KeyLimits} {r next : Root} {m : Mutation} {key : String}

theorem lakehouseDefPath_touch (m : Mutation) (r : Root) (key : String) :
    (m.touch r key).lakehouseDefPath = r.lakehouseDefPath := by
  unfold touch
  split
  · exact r.lakehouseDefPath_withRow key _
  · exact r.lakehouseDefPath_withoutRow key

theorem lakehouseDefPath_of_applyTo (h : m.applyTo limits r = .ok next) :
    next.lakehouseDefPath = r.lakehouseDefPath := by
  obtain ⟨key, -, rfl⟩ := map_eq_ok.mp h
  exact m.lakehouseDefPath_touch r key

theorem marked_touch (hMarked : r.Marked) (hKey : Key.hasMark key = true) :
    (m.touch r key).Marked := by
  intro entry hMem
  unfold touch at hMem
  split at hMem
  · rw [Root.rows_withRow] at hMem
    rcases TextMap.mem_insertEntry hMem with rfl | hMem
    · exact hKey
    · exact hMarked entry hMem
  · rw [Root.rows_withoutRow] at hMem
    exact hMarked entry (List.mem_filter.mp hMem).1

theorem marked_of_applyTo (h : m.applyTo limits r = .ok next) (hMarked : r.Marked) :
    next.Marked := by
  obtain ⟨key, hKey, rfl⟩ := map_eq_ok.mp h
  exact marked_touch hMarked (Change.hasMark_of_key (Change.key_of_target hKey))

theorem bears_of_place? {place : String} (h : m.place? = some place) :
    ∃ id, DefinitionPath.Bears id place := by
  obtain ⟨⟨data, path⟩, hDefinition, h⟩ := Option.bind_eq_some_iff.mp h
  obtain ⟨id, -, rfl⟩ := Option.map_eq_some_iff.mp h
  exact ⟨id, Change.bears_of_definition hDefinition id⟩

theorem placed_of_applyTo (h : m.applyTo limits r = .ok next) (hPlaced : r.Placed) :
    next.Placed := by
  obtain ⟨key, -, rfl⟩ := map_eq_ok.mp h
  intro entry hMem
  unfold touch at hMem
  split at hMem
  · next place hPlace =>
    rw [Root.rows_withRow] at hMem
    rcases TextMap.mem_insertEntry hMem with rfl | hMem
    · exact bears_of_place? hPlace
    · exact hPlaced entry hMem
  · rw [Root.rows_withoutRow] at hMem
    exact hPlaced entry (List.mem_filter.mp hMem).1

theorem rows_touch_congr {other : Root} (h : r.rows = other.rows) (m : Mutation) (key : String) :
    (m.touch r key).rows = (m.touch other key).rows := by
  unfold touch
  split
  · rw [Root.rows_withRow, Root.rows_withRow, h]
  · rw [Root.rows_withoutRow, Root.rows_withoutRow, h]

/-- The rows of a mutated root are the mutated rows. -/
theorem map_rows_applyTo (limits : KeyLimits) (r : Root) (m : Mutation) :
    (m.applyTo limits r).map (·.rows) = m.apply limits r.rows := by
  have hRows : r.rows = ({ Root.new "" with rows := r.rows } : Root).rows := rfl
  rw [apply, applyTo, applyTo, Change.target_congr hRows]
  cases m.change.target limits { Root.new "" with rows := r.rows } with
  | error e => rfl
  | ok key => exact congrArg Except.ok (rows_touch_congr hRows m key)

end Mutation

/-- The root after several mutations, one on top of the other. -/
def Root.replay (limits : KeyLimits) (r : Root) (past : List Mutation) : Except Error Root :=
  past.foldlM (Mutation.applyTo limits) r

/-- The rows after several mutations, one on top of the other. -/
def replay (limits : KeyLimits) (rows : TextMap String) (past : List Mutation) :
    Except Error (TextMap String) :=
  past.foldlM (Mutation.apply limits) rows

theorem Root.replay_append (limits : KeyLimits) (r : Root) (past more : List Mutation) :
    r.replay limits (past ++ more) = (r.replay limits past).bind (·.replay limits more) :=
  List.foldlM_append

theorem replay_append (limits : KeyLimits) (rows : TextMap String) (past more : List Mutation) :
    replay limits rows (past ++ more) =
      (replay limits rows past).bind (replay limits · more) :=
  List.foldlM_append

theorem Root.map_rows_replay (limits : KeyLimits) (r : Root) (past : List Mutation) :
    (r.replay limits past).map (·.rows) = SnapshotCatalog.replay limits r.rows past := by
  induction past generalizing r with
  | nil => rfl
  | cons m rest ih =>
      have hRows := Mutation.map_rows_applyTo limits r m
      show ((m.applyTo limits r).bind (·.replay limits rest)).map _ =
        (m.apply limits r.rows).bind (SnapshotCatalog.replay limits · rest)
      rw [← hRows]
      cases m.applyTo limits r with
      | error e => rfl
      | ok next => exact ih next

/-- A property of roots that every mutation keeps is kept by all of them. -/
theorem Root.replay_induction {limits : KeyLimits} {P : Root → Prop}
    (hStep : ∀ m r next, Mutation.applyTo limits r m = .ok next → P r → P next) {r last : Root}
    {past : List Mutation} (h : r.replay limits past = .ok last) (hStart : P r) : P last := by
  induction past generalizing r with
  | nil =>
      cases h
      exact hStart
  | cons m rest ih =>
      obtain ⟨next, hNext, h⟩ := bind_eq_ok.mp h
      exact ih h (hStep m r next hNext hStart)

end SnapshotCatalog
