import SnapshotCatalog.Root
/-!
The node file of a root. The rows that describe the root come first, then its object rows in key
order, and one row records how many object rows there are. Reading takes the rows in any order and
in any number of batches; it refuses nulls, keys that occur twice, keys it does not know, and a
count that differs from the rows.
-/
namespace SnapshotCatalog.Node

/-- The rows of a root, stamped with a time. -/
def rowsOf (r : Root) (time : Millis) : List (String × String) :=
  [(Key.lakehouseDef, r.lakehouseDefPath)] ++
    r.previousRootPath.toList.map (Key.previousRoot, ·) ++
    r.rollbackFromRootPath.toList.map (Key.rollbackFromRoot, ·) ++
    [(Key.createdAtMillis, Numeral.ofInt time.toInt),
      (Key.rowCount, Numeral.ofNat r.rows.size)] ++
    r.rows.entries

def encode (r : Root) (time : Millis) : File := File.ofRows (rowsOf r time)

/-- What was read so far. -/
structure Partial where
  lakehouseDefPath : Option String
  previousRootPath : Option String
  rollbackFromRootPath : Option String
  createdAt : Option Millis
  rowCount : Option UInt64
  rows : TextMap String

namespace Partial

def empty : Partial := ⟨none, none, none, none, none, .empty⟩

/-- Sets a field that must not be set yet. -/
def once {α β : Type} (key : String) (slot : Option α) (next : β) : Except Corruption β :=
  if slot.isSome then .error (.duplicateKey key) else .ok next

/-- Takes in one row. -/
def absorb (p : Partial) (row : String × String) : Except Corruption Partial :=
  let (key, value) := row
  if Key.hasMark key then once key (p.rows.get? key) { p with rows := p.rows.insert key value }
  else if key = Key.lakehouseDef then
    once key p.lakehouseDefPath { p with lakehouseDefPath := some value }
  else if key = Key.previousRoot then
    once key p.previousRootPath { p with previousRootPath := some value }
  else if key = Key.rollbackFromRoot then
    once key p.rollbackFromRootPath { p with rollbackFromRootPath := some value }
  else if key = Key.createdAtMillis then
    match Numeral.readSigned value with
    | .error fault => .error (.badCreationTime value fault)
    | .ok time => once key p.createdAt { p with createdAt := some time }
  else if key = Key.rowCount then
    match Numeral.readUnsigned value with
    | .error fault => .error (.badRowCount value fault)
    | .ok count => once key p.rowCount { p with rowCount := some count }
  else .error (.unknownKey key)

/-- The root that was read, once all rows are in. -/
def finish (p : Partial) : Except Corruption Root :=
  match p.lakehouseDefPath with
  | none => .error (.missingRow Key.lakehouseDef)
  | some lakehouseDefPath =>
    match p.createdAt with
    | none => .error (.missingRow Key.createdAtMillis)
    | some time =>
      match p.rowCount with
      | none => .error (.missingRow Key.rowCount)
      | some count =>
        if count.toNat = p.rows.size then
          .ok ⟨none, some time, lakehouseDefPath, p.previousRootPath, p.rollbackFromRootPath,
            p.rows⟩
        else .error (.rowCount count p.rows.size)

end Partial

/-- The texts of a batch, which must not hold nulls. -/
def batchTexts (rows : List Row) : Except Corruption (List (String × String)) :=
  if rows.any (·.key.isNone) then .error (.nulls 0)
  else if rows.any (·.value.isNone) then .error (.nulls 1)
  else .ok (rows.filterMap fun row => row.key.bind fun key => row.value.map (key, ·))

/-- Takes in a batch. Nulls are looked for before its first row is taken in. -/
def absorbBatch (p : Partial) (rows : List Row) : Except Corruption Partial := do
  (← batchTexts rows).foldlM Partial.absorb p

/-- The root in a node file. It has no place yet. -/
def decode (file : File) : Except Corruption Root :=
  if file.hasStandardFields then do
    (← file.batches.foldlM absorbBatch Partial.empty).finish
  else .error (.fields file.fields)

end SnapshotCatalog.Node
