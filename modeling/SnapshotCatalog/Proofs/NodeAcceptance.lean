import Mathlib.Data.List.Nodup
import SnapshotCatalog.Proofs.NodeCodec
import SnapshotCatalog.Chain.Link
/-!
Which node files are read. Reading takes rows one by one and stops at the first it cannot use, but
what it thinks of a file depends on the rows together: no key twice, no key it does not know, a
definition, a time that is a number, and a number of object rows that is the right one. The
invariant of the loop says of the rows so far what was kept of them, whatever their order.
-/
namespace SnapshotCatalog

namespace Node

/-- Whether the columns are those that the catalog writes, with a text in each of their cells. -/
structure File.Complete (f : File) : Prop where
  standard : f.hasStandardFields = true
  keys : ∀ batch ∈ f.batches, ∀ row ∈ batch, row.key.isSome
  values : ∀ batch ∈ f.batches, ∀ row ∈ batch, row.value.isSome

/-- The texts of a row that has both. -/
def Row.texts? (row : Row) : Option (String × String) :=
  row.key.bind fun key => row.value.map (key, ·)

/-- The texts of the rows of all batches, one batch after another. -/
def File.texts (f : File) : List (String × String) := f.batches.flatten.filterMap Row.texts?

/-- The rows of objects. -/
def objectRows (rows : List (String × String)) : List (String × String) :=
  rows.filter fun row => Key.hasMark row.1

/-- Whether a row can be used at all: its key is known, and where its value has to be a number, it
is one. -/
structure Usable (row : String × String) : Prop where
  known : Key.hasMark row.1 = true ∨ row.1 ∈ Key.systemKeys
  time : row.1 = Key.createdAtMillis → ∃ time, Numeral.readSigned row.2 = .ok time
  count : row.1 = Key.rowCount → ∃ count, Numeral.readUnsigned row.2 = .ok count

/-- Whether rows can be taken in one after another. -/
structure Admissible (rows : List (String × String)) : Prop where
  distinct : (rows.map (·.1)).Nodup
  usable : ∀ row ∈ rows, Usable row

/-- What makes rows the rows of a node. -/
structure WellFormed (rows : List (String × String)) : Prop where
  distinct : (rows.map (·.1)).Nodup
  known : ∀ row ∈ rows, Key.hasMark row.1 = true ∨ row.1 ∈ Key.systemKeys
  lakehouseDef : ∃ path, (Key.lakehouseDef, path) ∈ rows
  createdAt : ∃ text time,
    (Key.createdAtMillis, text) ∈ rows ∧ Numeral.readSigned text = .ok time
  rowCount : ∃ text count, (Key.rowCount, text) ∈ rows ∧
    Numeral.readUnsigned text = .ok count ∧ count.toNat = (objectRows rows).length

/-- Whether a root says what rows say, and nothing else. -/
structure Tells (rows : List (String × String)) (r : Root) : Prop where
  location : r.location = none
  createdAt : ∀ time, r.createdAt = some time ↔
    ∃ text, (Key.createdAtMillis, text) ∈ rows ∧ Numeral.readSigned text = .ok time
  lakehouseDef : ∀ path, r.lakehouseDefPath = path ↔ (Key.lakehouseDef, path) ∈ rows
  previousRoot : ∀ path, r.previousRootPath = some path ↔ (Key.previousRoot, path) ∈ rows
  rollbackFromRoot : ∀ path,
    r.rollbackFromRootPath = some path ↔ (Key.rollbackFromRoot, path) ∈ rows
  rows : ∀ key path, r.rows.get? key = some path ↔
    (key, path) ∈ rows ∧ Key.hasMark key = true

/-! ### All rows in a row -/

theorem batchTexts_of_complete {rows : List Row} (hKeys : ∀ row ∈ rows, row.key.isSome)
    (hValues : ∀ row ∈ rows, row.value.isSome) :
    batchTexts rows = .ok (rows.filterMap Row.texts?) := by
  have hKey : ¬ (rows.any (·.key.isNone)) = true := by
    simpa [Option.isSome_iff_ne_none] using hKeys
  have hValue : ¬ (rows.any (·.value.isNone)) = true := by
    simpa [Option.isSome_iff_ne_none] using hValues
  rw [batchTexts, if_neg hKey, if_neg hValue]
  rfl

theorem foldlM_absorbBatch {batches : List (List Row)} (p : Partial)
    (hKeys : ∀ batch ∈ batches, ∀ row ∈ batch, row.key.isSome)
    (hValues : ∀ batch ∈ batches, ∀ row ∈ batch, row.value.isSome) :
    batches.foldlM absorbBatch p =
      (batches.flatten.filterMap Row.texts?).foldlM Partial.absorb p := by
  induction batches generalizing p with
  | nil => rfl
  | cons batch rest ih =>
      have hBatch : absorbBatch p batch = (batch.filterMap Row.texts?).foldlM Partial.absorb p := by
        rw [absorbBatch, batchTexts_of_complete (hKeys batch List.mem_cons_self)
          (hValues batch List.mem_cons_self)]
        rfl
      rw [List.foldlM_cons, hBatch, List.flatten_cons, List.filterMap_append, List.foldlM_append]
      congr 1
      funext q
      exact ih q (fun next hMem => hKeys next (List.mem_cons_of_mem batch hMem))
        fun next hMem => hValues next (List.mem_cons_of_mem batch hMem)

/-- How the rows are split into batches does not matter. -/
theorem decode_of_complete {f : File} (h : f.Complete) :
    decode f = (f.texts.foldlM Partial.absorb Partial.empty).bind Partial.finish := by
  rw [decode, if_pos h.standard, foldlM_absorbBatch _ h.keys h.values]
  rfl

/-! ### What is kept of the rows so far -/

/-- Whether what was read is what rows say. -/
structure Partial.Holds (p : Partial) (rows : List (String × String)) : Prop where
  lakehouseDef : ∀ path, p.lakehouseDefPath = some path ↔ (Key.lakehouseDef, path) ∈ rows
  previousRoot : ∀ path, p.previousRootPath = some path ↔ (Key.previousRoot, path) ∈ rows
  rollbackFromRoot : ∀ path,
    p.rollbackFromRootPath = some path ↔ (Key.rollbackFromRoot, path) ∈ rows
  createdAt : ∀ time, p.createdAt = some time ↔
    ∃ text, (Key.createdAtMillis, text) ∈ rows ∧ Numeral.readSigned text = .ok time
  rowCount : ∀ count, p.rowCount = some count ↔
    ∃ text, (Key.rowCount, text) ∈ rows ∧ Numeral.readUnsigned text = .ok count
  rows : ∀ key path, p.rows.get? key = some path ↔ (key, path) ∈ rows ∧ Key.hasMark key = true

/-- Whether the outcome of reading rows is the right one. -/
def Reads (rows : List (String × String)) : Except Corruption Partial → Prop
  | .ok p => Admissible rows ∧ p.Holds rows
  | .error _ => ¬ Admissible rows

theorem Admissible.append {rows : List (String × String)} (h : Admissible rows)
    {row : String × String} (hNew : ∀ value, (row.1, value) ∉ rows) (hRow : Usable row) :
    Admissible (rows ++ [row]) := by
  constructor
  · rw [List.map_append, List.nodup_append]
    refine ⟨h.distinct, List.nodup_singleton _, fun key hKey other hOther => ?_⟩
    obtain ⟨⟨_, value⟩, hMem, rfl⟩ := List.mem_map.mp hKey
    rintro rfl
    rw [List.map_singleton, List.mem_singleton] at hOther
    exact hNew value (hOther ▸ hMem)
  · intro old hOld
    rcases List.mem_append.mp hOld with hOld | hOld
    · exact h.usable old hOld
    · rwa [List.mem_singleton.mp hOld]

theorem not_admissible_of_mem {rows : List (String × String)} {key value old : String}
    (h : (key, old) ∈ rows) : ¬ Admissible (rows ++ [(key, value)]) := by
  intro hAll
  have hDistinct := hAll.distinct
  rw [List.map_append, List.nodup_append] at hDistinct
  exact hDistinct.2.2 key (List.mem_map_of_mem h) key List.mem_cons_self rfl

theorem not_admissible_of_not_usable {rows : List (String × String)} {row : String × String}
    (h : ¬ Usable row) : ¬ Admissible (rows ++ [row]) := fun hAll =>
  h (hAll.usable row (List.mem_append_right rows List.mem_cons_self))

/-- A field that is set once is set if and only if its row is the first with its key. -/
theorem reads_once {α : Type} {rows : List (String × String)} (hRows : Admissible rows)
    {key value : String} (hRow : Usable (key, value)) {slot : Option α} {next : Partial}
    (hSlot : (∃ a, slot = some a) ↔ ∃ old, (key, old) ∈ rows)
    (hNext : (∀ old, (key, old) ∉ rows) → next.Holds (rows ++ [(key, value)])) :
    Reads (rows ++ [(key, value)]) (Partial.once key slot next) := by
  cases slot with
  | none =>
      have hNew : ∀ old, (key, old) ∉ rows := fun old hOld => by
        obtain ⟨_, hSome⟩ := hSlot.mpr ⟨old, hOld⟩
        cases hSome
      exact ⟨hRows.append hNew hRow, hNext hNew⟩
  | some a =>
      obtain ⟨old, hOld⟩ := hSlot.mp ⟨a, rfl⟩
      exact not_admissible_of_mem hOld

theorem hasMark_of_mem_systemKeys {key : String} (h : key ∈ Key.systemKeys) :
    Key.hasMark key = false := by
  revert h
  revert key
  decide

section Row

variable {rows : List (String × String)} {key value : String}

/-- One more row says nothing about other keys. -/
theorem mem_append_of_ne {other path : String} (h : other ≠ key) :
    (other, path) ∈ rows ++ [(key, value)] ↔ (other, path) ∈ rows := by
  simp [h]

/-- The first row with a key is the only one. -/
theorem mem_append_self (hNew : ∀ old, (key, old) ∉ rows) {path : String} :
    (key, path) ∈ rows ++ [(key, value)] ↔ value = path := by
  simp [hNew, eq_comm]

/-- A row that describes the root is no object row. -/
theorem mem_append_object (h : key ∈ Key.systemKeys) {other path : String} :
    (other, path) ∈ rows ++ [(key, value)] ∧ Key.hasMark other = true ↔
      (other, path) ∈ rows ∧ Key.hasMark other = true := by
  refine and_congr_left fun hMark => mem_append_of_ne ?_
  rintro rfl
  rw [hasMark_of_mem_systemKeys h] at hMark
  cases hMark

end Row

namespace Partial.Holds

variable {p : Partial} {rows : List (String × String)}

/-- A row with an object key. -/
theorem withObject (h : p.Holds rows) {key : String} (value : String)
    (hMark : Key.hasMark key = true) (hNew : ∀ old, (key, old) ∉ rows) :
    { p with rows := p.rows.insert key value }.Holds (rows ++ [(key, value)]) := by
  have hOther : ∀ other ∈ Key.systemKeys, other ≠ key := by
    rintro other hMem rfl
    rw [hasMark_of_mem_systemKeys hMem] at hMark
    cases hMark
  constructor
  case rows =>
      intro other path
      by_cases hSame : other = key
      · subst hSame
        simp [hMark, hNew, eq_comm]
      · simp [TextMap.get?_insert_of_ne _ hSame, h.rows, hSame]
  · simp [h.lakehouseDef, hOther Key.lakehouseDef (by decide)]
  · simp [h.previousRoot, hOther Key.previousRoot (by decide)]
  · simp [h.rollbackFromRoot, hOther Key.rollbackFromRoot (by decide)]
  · simp [h.createdAt, hOther Key.createdAtMillis (by decide)]
  · simp [h.rowCount, hOther Key.rowCount (by decide)]

theorem withLakehouseDef (h : p.Holds rows) (value : String)
    (hNew : ∀ old, (Key.lakehouseDef, old) ∉ rows) :
    { p with lakehouseDefPath := some value }.Holds (rows ++ [(Key.lakehouseDef, value)]) := by
  constructor <;> simp (disch := decide) only [mem_append_self hNew, mem_append_of_ne,
    mem_append_object, h.previousRoot, h.rollbackFromRoot, h.createdAt, h.rowCount, h.rows,
    Option.some_inj, implies_true]

theorem withPreviousRoot (h : p.Holds rows) (value : String)
    (hNew : ∀ old, (Key.previousRoot, old) ∉ rows) :
    { p with previousRootPath := some value }.Holds (rows ++ [(Key.previousRoot, value)]) := by
  constructor <;> simp (disch := decide) only [mem_append_self hNew, mem_append_of_ne,
    mem_append_object, h.lakehouseDef, h.rollbackFromRoot, h.createdAt, h.rowCount, h.rows,
    Option.some_inj, implies_true]

theorem withRollbackFromRoot (h : p.Holds rows) (value : String)
    (hNew : ∀ old, (Key.rollbackFromRoot, old) ∉ rows) :
    { p with rollbackFromRootPath := some value }.Holds
      (rows ++ [(Key.rollbackFromRoot, value)]) := by
  constructor <;> simp (disch := decide) only [mem_append_self hNew, mem_append_of_ne,
    mem_append_object, h.lakehouseDef, h.previousRoot, h.createdAt, h.rowCount, h.rows,
    Option.some_inj, implies_true]

theorem withCreatedAt (h : p.Holds rows) {value : String} {time : Millis}
    (hRead : Numeral.readSigned value = .ok time)
    (hNew : ∀ old, (Key.createdAtMillis, old) ∉ rows) :
    { p with createdAt := some time }.Holds (rows ++ [(Key.createdAtMillis, value)]) := by
  constructor <;> simp (disch := decide) only [mem_append_self hNew, mem_append_of_ne,
    mem_append_object, h.lakehouseDef, h.previousRoot, h.rollbackFromRoot, h.rowCount, h.rows,
    exists_eq_left', hRead, Except.ok.injEq, Option.some_inj, implies_true]

theorem withRowCount (h : p.Holds rows) {value : String} {count : UInt64}
    (hRead : Numeral.readUnsigned value = .ok count)
    (hNew : ∀ old, (Key.rowCount, old) ∉ rows) :
    { p with rowCount := some count }.Holds (rows ++ [(Key.rowCount, value)]) := by
  constructor <;> simp (disch := decide) only [mem_append_self hNew, mem_append_of_ne,
    mem_append_object, h.lakehouseDef, h.previousRoot, h.rollbackFromRoot, h.createdAt, h.rows,
    exists_eq_left', hRead, Except.ok.injEq, Option.some_inj, implies_true]

end Partial.Holds

theorem usable_of_text {key : String} (value : String)
    (hKnown : Key.hasMark key = true ∨ key ∈ Key.systemKeys) (hTime : key ≠ Key.createdAtMillis)
    (hCount : key ≠ Key.rowCount) : Usable (key, value) :=
  ⟨hKnown, fun h => absurd h hTime, fun h => absurd h hCount⟩

theorem usable_createdAt (text : String) :
    Usable (Key.createdAtMillis, text) ↔ ∃ time, Numeral.readSigned text = .ok time := by
  have hOther : Key.createdAtMillis ≠ Key.rowCount := by decide
  have hKnown : Key.createdAtMillis ∈ Key.systemKeys := by decide
  exact ⟨fun h => h.time rfl, fun h => ⟨.inr hKnown, fun _ => h, fun hKey => absurd hKey hOther⟩⟩

theorem usable_rowCount (text : String) :
    Usable (Key.rowCount, text) ↔ ∃ count, Numeral.readUnsigned text = .ok count := by
  have hOther : Key.rowCount ≠ Key.createdAtMillis := by decide
  have hKnown : Key.rowCount ∈ Key.systemKeys := by decide
  exact ⟨fun h => h.count rfl, fun h => ⟨.inr hKnown, fun hKey => absurd hKey hOther, fun _ => h⟩⟩

/-- A field that is a number. -/
theorem reads_number {α : Type} {rows : List (String × String)} (hRows : Admissible rows)
    {key value : String} {read : String → Except Numeral.Fault α} {slot : Option α}
    {next : α → Partial} {outcome : Except Corruption Partial}
    (hBad : ∀ fault, read value = .error fault → ∃ corruption, outcome = .error corruption)
    (hGood : ∀ a, read value = .ok a → outcome = Partial.once key slot (next a))
    (hUsable : ∀ text, Usable (key, text) ↔ ∃ a, read text = .ok a)
    (hSlot : ∀ a, slot = some a ↔ ∃ text, (key, text) ∈ rows ∧ read text = .ok a)
    (hNext : ∀ a, read value = .ok a → (∀ old, (key, old) ∉ rows) →
      (next a).Holds (rows ++ [(key, value)])) : Reads (rows ++ [(key, value)]) outcome := by
  cases hRead : read value with
  | error fault =>
      obtain ⟨corruption, rfl⟩ := hBad fault hRead
      refine not_admissible_of_not_usable fun h => ?_
      obtain ⟨a, hOk⟩ := (hUsable value).mp h
      rw [hRead] at hOk
      cases hOk
  | ok a =>
      rw [hGood a hRead]
      refine reads_once hRows ((hUsable value).mpr ⟨a, hRead⟩) ⟨?_, ?_⟩ (hNext a hRead)
      · rintro ⟨old, hSome⟩
        obtain ⟨text, hMem, -⟩ := (hSlot old).mp hSome
        exact ⟨text, hMem⟩
      · rintro ⟨text, hMem⟩
        obtain ⟨old, hOld⟩ := (hUsable text).mp (hRows.usable _ hMem)
        exact ⟨old, (hSlot old).mpr ⟨text, hMem, hOld⟩⟩

/-- What one row does: it is refused, or what is kept includes it. -/
theorem reads_absorb {p : Partial} {rows : List (String × String)} (hRows : Admissible rows)
    (h : p.Holds rows) (row : String × String) : Reads (rows ++ [row]) (p.absorb row) := by
  obtain ⟨key, value⟩ := row
  rw [Partial.absorb]
  by_cases hMark : Key.hasMark key = true
  · have hSystem : ∀ other ∈ Key.systemKeys, key ≠ other := by
      rintro other hMem rfl
      rw [hasMark_of_mem_systemKeys hMem] at hMark
      cases hMark
    rw [if_pos hMark]
    exact reads_once hRows
      (usable_of_text value (.inl hMark) (hSystem _ (by decide)) (hSystem _ (by decide)))
      (by simp [h.rows, hMark]) (h.withObject value hMark)
  rw [if_neg hMark]
  by_cases hDef : key = Key.lakehouseDef
  · subst hDef
    rw [if_pos rfl]
    exact reads_once hRows (usable_of_text value (.inr (by decide)) (by decide) (by decide))
      (exists_congr h.lakehouseDef) (h.withLakehouseDef value)
  rw [if_neg hDef]
  by_cases hPrevious : key = Key.previousRoot
  · subst hPrevious
    rw [if_pos rfl]
    exact reads_once hRows (usable_of_text value (.inr (by decide)) (by decide) (by decide))
      (exists_congr h.previousRoot) (h.withPreviousRoot value)
  rw [if_neg hPrevious]
  by_cases hRollback : key = Key.rollbackFromRoot
  · subst hRollback
    rw [if_pos rfl]
    exact reads_once hRows (usable_of_text value (.inr (by decide)) (by decide) (by decide))
      (exists_congr h.rollbackFromRoot) (h.withRollbackFromRoot value)
  rw [if_neg hRollback]
  by_cases hTime : key = Key.createdAtMillis
  · subst hTime
    rw [if_pos rfl]
    refine reads_number hRows (fun fault hRead => ?_) (fun time hRead => ?_) usable_createdAt
      h.createdAt fun _ => h.withCreatedAt
    · rw [hRead]
      exact ⟨_, rfl⟩
    · rw [hRead]
  rw [if_neg hTime]
  by_cases hCount : key = Key.rowCount
  · subst hCount
    rw [if_pos rfl]
    refine reads_number hRows (fun fault hRead => ?_) (fun count hRead => ?_) usable_rowCount
      h.rowCount fun _ => h.withRowCount
    · rw [hRead]
      exact ⟨_, rfl⟩
    · rw [hRead]
  rw [if_neg hCount]
  refine not_admissible_of_not_usable fun hUsable => ?_
  rcases hUsable.known with hKey | hKey
  · exact hMark hKey
  · simp [Key.systemKeys, hDef, hPrevious, hRollback, hTime, hCount] at hKey

theorem Admissible.of_append {rows rest : List (String × String)} (h : Admissible (rows ++ rest)) :
    Admissible rows := by
  have hDistinct := h.distinct
  rw [List.map_append, List.nodup_append] at hDistinct
  exact ⟨hDistinct.1, fun row hMem => h.usable row (List.mem_append_left rest hMem)⟩

/-- What all rows do, by induction on the rows that are still to come. -/
theorem reads_foldlM {rest : List (String × String)} {p : Partial}
    {rows : List (String × String)} (hRows : Admissible rows) (h : p.Holds rows) :
    Reads (rows ++ rest) (rest.foldlM Partial.absorb p) := by
  induction rest generalizing p rows with
  | nil => exact (List.append_nil rows).symm ▸ ⟨hRows, h⟩
  | cons row rest ih =>
      have hStep := reads_absorb hRows h row
      rw [List.foldlM_cons, List.append_cons]
      cases hAbsorb : p.absorb row with
      | ok q =>
          rw [hAbsorb] at hStep
          exact ih hStep.1 hStep.2
      | error corruption =>
          rw [hAbsorb] at hStep
          exact fun hAll => hStep hAll.of_append

theorem Partial.holds_empty : Partial.empty.Holds [] := by
  constructor <;> simp [Partial.empty]

theorem reads_all (rows : List (String × String)) :
    Reads rows (rows.foldlM Partial.absorb Partial.empty) := by
  have hNil : Admissible [] := ⟨List.nodup_nil, fun _ h => absurd h List.not_mem_nil⟩
  exact reads_foldlM hNil Partial.holds_empty

/-! ### The root of all rows -/

/-- With every key once, a key has one value. -/
theorem value_unique {rows : List (String × String)} (h : (rows.map (·.1)).Nodup)
    {key value other : String} (hValue : (key, value) ∈ rows) (hOther : (key, other) ∈ rows) :
    value = other :=
  congrArg Prod.snd (List.inj_on_of_nodup_map h hValue hOther rfl)

theorem WellFormed.admissible {rows : List (String × String)} (h : WellFormed rows) :
    Admissible rows := by
  refine ⟨h.distinct, fun (key, value) hRow => ⟨h.known _ hRow, ?_, ?_⟩⟩
  · rintro rfl
    obtain ⟨text, time, hMem, hRead⟩ := h.createdAt
    exact ⟨time, value_unique h.distinct hMem hRow ▸ hRead⟩
  · rintro rfl
    obtain ⟨text, count, hMem, hRead, -⟩ := h.rowCount
    exact ⟨count, value_unique h.distinct hMem hRow ▸ hRead⟩

/-- With every key once, as many object rows are kept as there are. -/
theorem Partial.Holds.size_rows {p : Partial} {rows : List (String × String)} (h : p.Holds rows)
    (hRows : Admissible rows) : p.rows.size = (objectRows rows).length := by
  have hMem : ∀ row, row ∈ p.rows.entries ↔ row ∈ objectRows rows := fun (key, path) => by
    rw [← TextMap.get?_eq_some_iff, h.rows, objectRows, List.mem_filter]
  have hEntries : p.rows.entries.Nodup :=
    p.rows.sorted.imp fun hBefore hSame => hBefore.ne (congrArg Prod.fst hSame)
  have hObjects : (objectRows rows).Nodup := (List.Nodup.of_map _ hRows.distinct).filter _
  exact ((List.perm_ext_iff_of_nodup hEntries hObjects).mpr hMem).length_eq

/-- What is kept of the rows of a node makes a root. -/
theorem Partial.Holds.finish {p : Partial} {rows : List (String × String)} (h : p.Holds rows)
    (hWell : WellFormed rows) : ∃ r, p.finish = .ok r ∧ Tells rows r := by
  obtain ⟨path, hPath⟩ := hWell.lakehouseDef
  obtain ⟨_, time, hTime, hReadTime⟩ := hWell.createdAt
  obtain ⟨_, count, hCount, hReadCount, hSize⟩ := hWell.rowCount
  have hDef := (h.lakehouseDef path).mpr hPath
  have hCreated := (h.createdAt time).mpr ⟨_, hTime, hReadTime⟩
  have hRecorded := (h.rowCount count).mpr ⟨_, hCount, hReadCount⟩
  rw [← h.size_rows hWell.admissible] at hSize
  refine ⟨⟨none, some time, path, p.previousRootPath, p.rollbackFromRootPath, p.rows⟩, ?_, ?_⟩
  · simp only [Partial.finish, hDef, hCreated, hRecorded, if_pos hSize]
  · refine ⟨rfl, fun other => ?_, fun other => ?_, h.previousRoot, h.rollbackFromRoot, h.rows⟩
    · rw [← h.createdAt, hCreated]
    · rw [← h.lakehouseDef, hDef, Option.some_inj]

theorem Partial.Holds.wellFormed {p : Partial} {rows : List (String × String)} (h : p.Holds rows)
    (hRows : Admissible rows) {r : Root} (hFinish : p.finish = .ok r) : WellFormed rows := by
  rw [Partial.finish] at hFinish
  cases hDef : p.lakehouseDefPath with
  | none => simp [hDef] at hFinish
  | some path =>
  cases hTime : p.createdAt with
  | none => simp [hDef, hTime] at hFinish
  | some time =>
  cases hCount : p.rowCount with
  | none => simp [hDef, hTime, hCount] at hFinish
  | some count =>
  simp only [hDef, hTime, hCount] at hFinish
  split at hFinish
  next hSize =>
    obtain ⟨timeText, hTimeMem, hReadTime⟩ := (h.createdAt time).mp hTime
    obtain ⟨countText, hCountMem, hReadCount⟩ := (h.rowCount count).mp hCount
    exact ⟨hRows.distinct, fun row hRow => (hRows.usable row hRow).known,
      ⟨path, (h.lakehouseDef path).mp hDef⟩, ⟨timeText, time, hTimeMem, hReadTime⟩,
      ⟨countText, count, hCountMem, hReadCount, hSize.trans (h.size_rows hRows)⟩⟩
  next => cases hFinish

theorem Tells.unique {rows : List (String × String)} {r other : Root} (h : Tells rows r)
    (hOther : Tells rows other) : r = other := by
  obtain ⟨location, createdAt, definition, previous, rollback, objects⟩ := r
  obtain ⟨location', createdAt', definition', previous', rollback', objects'⟩ := other
  have hLocation : location = location' := h.location.trans hOther.location.symm
  have hCreated : createdAt = createdAt' := Option.ext fun time =>
    (h.createdAt time).trans (hOther.createdAt time).symm
  have hDefinition : definition = definition' :=
    (h.lakehouseDef definition').mpr ((hOther.lakehouseDef definition').mp rfl)
  have hPrevious : previous = previous' := Option.ext fun path =>
    (h.previousRoot path).trans (hOther.previousRoot path).symm
  have hRollback : rollback = rollback' := Option.ext fun path =>
    (h.rollbackFromRoot path).trans (hOther.rollbackFromRoot path).symm
  have hObjects : objects = objects' := TextMap.ext fun key => Option.ext fun path =>
    (h.rows key path).trans (hOther.rows key path).symm
  subst hLocation hCreated hDefinition hPrevious hRollback hObjects
  rfl

theorem WellFormed.perm {rows others : List (String × String)} (h : WellFormed rows)
    (hPerm : rows.Perm others) : WellFormed others := by
  obtain ⟨path, hPath⟩ := h.lakehouseDef
  obtain ⟨timeText, time, hTime, hReadTime⟩ := h.createdAt
  obtain ⟨countText, count, hCount, hReadCount, hSize⟩ := h.rowCount
  exact ⟨(hPerm.map _).nodup_iff.mp h.distinct, fun row hRow => h.known row (hPerm.mem_iff.mpr hRow),
    ⟨path, hPerm.mem_iff.mp hPath⟩, ⟨timeText, time, hPerm.mem_iff.mp hTime, hReadTime⟩,
    ⟨countText, count, hPerm.mem_iff.mp hCount, hReadCount,
      hSize.trans (hPerm.filter _).length_eq⟩⟩

theorem Tells.perm {rows others : List (String × String)} {r : Root} (h : Tells rows r)
    (hPerm : rows.Perm others) : Tells others r := by
  obtain ⟨hLocation, hCreated, hDefinition, hPrevious, hRollback, hObjects⟩ := h
  simp only [hPerm.mem_iff] at hCreated hDefinition hPrevious hRollback hObjects
  exact ⟨hLocation, hCreated, hDefinition, hPrevious, hRollback, hObjects⟩

/-- The rows of a node are read. -/
theorem WellFormed.exists_decode {f : File} (h : f.Complete) (hWell : WellFormed f.texts) :
    ∃ r, decode f = .ok r ∧ Tells f.texts r := by
  have hReads := reads_all f.texts
  rw [decode_of_complete h]
  cases hFold : f.texts.foldlM Partial.absorb Partial.empty with
  | error corruption =>
      rw [hFold] at hReads
      exact absurd hWell.admissible hReads
  | ok p =>
      rw [hFold] at hReads
      exact hReads.2.finish hWell

/-- Only the rows of a node are read. -/
theorem wellFormed_of_decode {f : File} (h : f.Complete) {r : Root} (hRead : decode f = .ok r) :
    WellFormed f.texts := by
  have hReads := reads_all f.texts
  rw [decode_of_complete h] at hRead
  cases hFold : f.texts.foldlM Partial.absorb Partial.empty with
  | error corruption =>
      rw [hFold] at hRead
      cases hRead
  | ok p =>
      rw [hFold] at hReads hRead
      exact hReads.2.wellFormed hReads.1 hRead

/-- A file is read if and only if its rows are those of a node, and then as what they say. -/
theorem decode_eq_ok_iff {f : File} (h : f.Complete) {r : Root} :
    decode f = .ok r ↔ WellFormed f.texts ∧ Tells f.texts r := by
  constructor
  · intro hRead
    have hWell := wellFormed_of_decode h hRead
    obtain ⟨read, hDecode, hTells⟩ := hWell.exists_decode h
    rw [hRead] at hDecode
    cases hDecode
    exact ⟨hWell, hTells⟩
  · rintro ⟨hWell, hTells⟩
    obtain ⟨read, hDecode, hOther⟩ := hWell.exists_decode h
    rw [hDecode, hOther.unique hTells]

/-- The rows of a node stop being those of a node when object rows are added. -/
theorem WellFormed.eq_nil_of_append {objects rows : List (String × String)} (h : WellFormed rows)
    (hObjects : ∀ row ∈ objects, Key.hasMark row.1 = true) (hMore : WellFormed (objects ++ rows)) :
    objects = [] := by
  obtain ⟨text, count, hMem, hRead, hSize⟩ := h.rowCount
  obtain ⟨_, _, hMoreMem, hMoreRead, hMoreSize⟩ := hMore.rowCount
  cases value_unique hMore.distinct (List.mem_append_right objects hMem) hMoreMem
  rw [hRead] at hMoreRead
  cases hMoreRead
  have hAll : objects.filter (fun row => Key.hasMark row.1) = objects :=
    List.filter_eq_self.mpr hObjects
  rw [objectRows, List.filter_append, hAll, List.length_append, hSize, objectRows] at hMoreSize
  exact List.length_eq_zero_iff.mp (by omega)

/-- Whether rows are others with one object row or more added or taken away, in any order. -/
def ObjectsDiffer (rows others : List (String × String)) : Prop :=
  ∃ objects ≠ [], (∀ row ∈ objects, Key.hasMark row.1 = true) ∧
    (others.Perm (objects ++ rows) ∨ rows.Perm (objects ++ others))

theorem WellFormed.not_of_objectsDiffer {rows others : List (String × String)}
    (h : WellFormed rows) (hDiffer : ObjectsDiffer rows others) : ¬ WellFormed others := by
  obtain ⟨objects, hSome, hObjects, hAdded | hRemoved⟩ := hDiffer
  · exact fun hOther => hSome (h.eq_nil_of_append hObjects (hOther.perm hAdded))
  · exact fun hOther => hSome (hOther.eq_nil_of_append hObjects (h.perm hRemoved))

end Node

namespace Chain

open Node

theorem parseNode_node {path : String} {f : File} {r : Root} :
    parseNode path (.node f) = .ok r ↔ decode f = .ok r := by
  rw [parseNode]
  cases decode f with
  | ok read => simp
  | error corruption => simp

theorem parseNode_eq_ok_iff {f : File} (h : f.Complete) {path : String} {r : Root} :
    parseNode path (.node f) = .ok r ↔ WellFormed f.texts ∧ Tells f.texts r := by
  rw [parseNode_node, decode_eq_ok_iff h]

theorem parseNode_of_not_wellFormed {f : File} (h : f.Complete) (path : String)
    (hOther : ¬ WellFormed f.texts) :
    ∃ corruption, parseNode path (.node f) = .error (.corrupted path corruption) := by
  cases hDecode : decode f with
  | ok r => exact absurd ((decode_eq_ok_iff h).mp hDecode).1 hOther
  | error corruption => exact ⟨corruption, by rw [parseNode, hDecode]⟩

/-- A file with the columns that the catalog writes and without nulls is read if and only if its
rows are those of a node. The root that is read says what the rows say; otherwise the object at
the path is reported as corrupted. The order of the rows and their split into batches change
nothing, and object rows that were added or taken away without counting them are noticed. -/
theorem reads_exactly_nodes {f : File} (h : f.Complete) (path : String) :
    ((∃ r, parseNode path (.node f) = .ok r) ↔ WellFormed f.texts) ∧
      (∀ r, parseNode path (.node f) = .ok r → Tells f.texts r) ∧
      (¬ WellFormed f.texts →
        ∃ corruption, parseNode path (.node f) = .error (.corrupted path corruption)) ∧
      ∀ other : File, other.Complete →
        (f.texts.Perm other.texts → ∀ r,
          parseNode path (.node f) = .ok r ↔ parseNode path (.node other) = .ok r) ∧
        (WellFormed f.texts → ObjectsDiffer f.texts other.texts →
          ∃ corruption, parseNode path (.node other) = .error (.corrupted path corruption)) := by
  refine ⟨⟨?_, fun hWell => ?_⟩, fun r hRead => ((parseNode_eq_ok_iff h).mp hRead).2,
    parseNode_of_not_wellFormed h path, fun other hOther => ⟨fun hPerm r => ?_, fun hWell hDiffer => ?_⟩⟩
  · rintro ⟨r, hRead⟩
    exact ((parseNode_eq_ok_iff h).mp hRead).1
  · obtain ⟨r, -, hTells⟩ := hWell.exists_decode h
    exact ⟨r, (parseNode_eq_ok_iff h).mpr ⟨hWell, hTells⟩⟩
  · rw [parseNode_eq_ok_iff h, parseNode_eq_ok_iff hOther]
    exact ⟨fun hRead => ⟨hRead.1.perm hPerm, hRead.2.perm hPerm⟩,
      fun hRead => ⟨hRead.1.perm hPerm.symm, hRead.2.perm hPerm.symm⟩⟩
  · exact parseNode_of_not_wellFormed hOther path (hWell.not_of_objectsDiffer hDiffer)

/-- The file of a node, in three batches with the rows out of order. -/
def scattered : File :=
  ⟨File.standardFields,
    [[{ key := some "n_keys", value := some "2" }, { key := some "C===ab", value := some "t" }], [],
      [{ key := some "created_at_millis", value := some "-5" },
        { key := some "B===a", value := some "n" },
        { key := some "lakehouse_def", value := some "d" }]]⟩

/-- Its rows in one batch and in another order. -/
def gathered : File :=
  File.ofRows [("lakehouse_def", "d"), ("created_at_millis", "-5"), ("n_keys", "2"),
    ("B===a", "n"), ("C===ab", "t")]

/-- The file without its last object row. -/
def pruned : File :=
  File.ofRows [("lakehouse_def", "d"), ("created_at_millis", "-5"), ("n_keys", "2"),
    ("B===a", "n")]

theorem wellFormed_scattered : WellFormed scattered.texts where
  distinct := by decide
  known := by decide
  lakehouseDef := ⟨"d", by decide⟩
  createdAt := ⟨"-5", -5, by decide, by decide⟩
  rowCount := ⟨"2", 2, by decide, by decide, by decide⟩

theorem reads_scattered :
    ∃ r, parseNode "00" (.node scattered) = .ok r ∧ parseNode "00" (.node gathered) = .ok r ∧
      r.createdAt = some (-5) ∧ r.rows.get? "C===ab" = some "t" ∧
      ∃ corruption, parseNode "00" (.node pruned) = .error (.corrupted "00" corruption) := by
  have hScattered : scattered.Complete := ⟨by decide, by decide, by decide⟩
  have hGathered : gathered.Complete := ⟨by decide, by decide, by decide⟩
  have hPruned : pruned.Complete := ⟨by decide, by decide, by decide⟩
  have hDiffer : ObjectsDiffer scattered.texts pruned.texts :=
    ⟨[("C===ab", "t")], by decide, by decide, .inr (by decide)⟩
  obtain ⟨hReads, hTells, -, hOthers⟩ := reads_exactly_nodes hScattered "00"
  obtain ⟨r, hRead⟩ := hReads.mpr wellFormed_scattered
  have hTold := hTells r hRead
  refine ⟨r, hRead, ((hOthers gathered hGathered).1 (by decide) r).mp hRead, ?_, ?_,
    (hOthers pruned hPruned).2 wellFormed_scattered hDiffer⟩
  · exact (hTold.createdAt (-5)).mpr ⟨"-5", by decide, by decide⟩
  · exact (hTold.rows "C===ab" "t").mpr ⟨by decide, by decide⟩

end Chain

end SnapshotCatalog
