import SnapshotCatalog.Node.File
/-!
The size of a node file. A file opens with a marker, describes its columns, holds its batches, each
behind a description of its own, and closes with a list of the batches and the columns once more.
Descriptions are written from their end to their beginning, and every item begins at a multiple of
its width counted from the end, so the room an item takes depends on what follows it. The main
statement says what a file that the catalog writes takes.
-/
namespace SnapshotCatalog.Node

/-- A size rounded up to a multiple of a width. -/
def roundUp (width n : Nat) : Nat := (n + width - 1) / width * width

theorem le_roundUp {width : Nat} (h : 0 < width) (n : Nat) : n ≤ roundUp width n := by
  have hDiv := Nat.div_add_mod (n + width - 1) width
  have hMod := Nat.mod_lt (n + width - 1) h
  rw [roundUp, Nat.mul_comm]
  omega

/-- A size rounded up to whole blocks of 64 bytes. -/
def padded (n : Nat) : Nat := roundUp 64 n

theorem padded_pos {n : Nat} (h : 0 < n) : 0 < padded n :=
  Nat.lt_of_lt_of_le h (le_roundUp (by decide) n)

/-- The form of a record: its size, and for each slot that it fills how far from its beginning the
item is. Records of one form share one table of these distances. -/
structure Shape where
  size : Nat
  distances : List (Nat × Nat)
  deriving DecidableEq, Repr

/-- The size of the table of a form: two numbers, and one for every slot up to the last filled. -/
def Shape.tableSize (s : Shape) : Nat :=
  2 * s.distances.foldl (fun size (slot, _) => max size (slot + 3)) 2

/-- The end of a description, as far as it is written: its size, the greatest width of an item in
it, and the forms of its records. -/
structure Tail where
  size : Nat
  width : Nat
  shapes : List Shape
  deriving DecidableEq, Repr

namespace Tail

def empty : Tail := ⟨0, 1, []⟩

/-- Leaves room, so that what is written next and has the given size begins at a multiple of a
width. -/
def align (t : Tail) (width size : Nat) : Tail :=
  { t with size := roundUp width (t.size + size) - size, width := max t.width width }

/-- Writes bytes where they come to stand. -/
def skip (t : Tail) (size : Nat) : Tail := { t with size := t.size + size }

/-- Writes an item of a width. -/
def item (t : Tail) (width : Nat) : Tail := (t.align width width).skip width

/-- Writes a text of a size, with a byte that ends it and its length before it. -/
def text (t : Tail) (size : Nat) : Tail := ((t.align 4 (size + 1)).skip (size + 1)).item 4

/-- Writes items of one size, with their count before them. -/
def vector (t : Tail) (count size : Nat) : Tail :=
  ((t.align 4 (count * size)).skip (count * size)).item 4

/-- Writes the items of a record, each a slot and a width, and says how far from the end of the
description they begin. -/
def slots (t : Tail) : List (Nat × Nat) → Tail × List (Nat × Nat)
  | [] => (t, [])
  | (slot, width) :: rest =>
    let (done, begins) := (t.item width).slots rest
    (done, (slot, (t.item width).size) :: begins)

/-- Writes a record, with the distance to its table before it, and the table if it is new. -/
def record (t : Tail) (fields : List (Nat × Nat)) : Tail :=
  let (written, begins) := t.slots fields
  let written := written.item 4
  let shape : Shape :=
    ⟨written.size - t.size, begins.map fun (slot, place) => (slot, written.size - place)⟩
  if shape ∈ written.shapes then written
  else { written.skip shape.tableSize with shapes := shape :: written.shapes }

/-- The size of the whole description, which begins with the distance to its last record. -/
def total (t : Tail) : Nat := ((t.align t.width 4).item 4).size

end Tail

namespace Field

/-- Writes the type of a column and its columns within, of which there are none. -/
def writeType (type : ColumnType) (t : Tail) : Tail :=
  match type with
  | .integer => (t.vector 0 4).record [(1, 1), (0, 4)]
  | _ => (t.record []).vector 0 4

/-- Writes a column: its name, the kind of its type, whether it may hold nulls if so, the columns
within, and its type. -/
def write (t : Tail) (f : Field) : Tail :=
  (writeType f.type (t.text f.name.utf8ByteSize)).record
    ([(0, 4), (2, 1)] ++ (if f.nullable then [(1, 1)] else []) ++ [(5, 4), (3, 4)])

/-- Writes columns and their list. -/
def writeAll (t : Tail) (fields : List Field) : Tail :=
  ((fields.foldl write t).vector fields.length 4).record [(1, 4)]

/-- How many buffers hold the cells of a column. -/
def bufferCount (f : Field) : Nat :=
  match f.type with
  | .integer | .boolean => 2
  | _ => 3

/-- The bytes of the texts among cells. -/
def textSize (cells : List (Option String)) : Nat :=
  cells.foldl (fun size cell => size + (cell.map String.utf8ByteSize).getD 0) 0

/-- The bytes of the cells of a column: a bit each that says whether it is null, and then numbers,
bits, or texts with their offsets. -/
def cellsSize (f : Field) (cells : List (Option String)) : Nat :=
  let count := cells.length
  padded ((count + 7) / 8) +
    match f.type with
    | .integer => padded (8 * count)
    | .boolean => padded ((count + 7) / 8)
    | .longText => if count = 0 then 0 else padded (8 * (count + 1)) + padded (textSize cells)
    | _ => if count = 0 then 0 else padded (4 * (count + 1)) + padded (textSize cells)

end Field

namespace File

/-- The size of a description with the mark and the length before it. -/
def described (t : Tail) : Nat := padded (8 + t.total)

/-- The description of the columns. -/
def columnsSize (fields : List Field) : Nat :=
  described ((Field.writeAll .empty fields).record [(0, 2), (1, 1), (2, 4)])

/-- The description of a batch. Counts of zero are left out. -/
def batchHeadSize (fields : List Field) (count bodySize : Nat) : Nat :=
  let buffers := fields.foldl (fun buffers f => buffers + f.bufferCount) 0
  let lists := (Tail.empty.vector buffers 16).vector fields.length 16
  let batch := lists.record ((if count = 0 then [] else [(0, 8)]) ++ [(1, 4), (2, 4)])
  described
    (batch.record ([(0, 2), (1, 1)] ++ (if bodySize = 0 then [] else [(3, 8)]) ++ [(2, 4)]))

/-- The cells of a batch. -/
def bodySize (fields : List Field) (rows : List Row) : Nat :=
  (fields.zipIdx.map fun (f, column) => f.cellsSize (rows.map (·.cell column))).foldl (· + ·) 0

def batchSize (fields : List Field) (rows : List Row) : Nat :=
  batchHeadSize fields rows.length (bodySize fields rows) + bodySize fields rows

/-- The list of the batches, 24 bytes each, and the columns once more. -/
def closingSize (fields : List Field) (batches : Nat) : Nat :=
  (Field.writeAll ((Tail.empty.vector 0 24).vector batches 24) fields).record
    [(0, 2), (1, 4), (2, 4), (3, 4)] |>.total

/-- The size of the file in bytes. The marker takes a block, the end of the batches eight bytes,
and the length of the closing part and the marker once more take ten. -/
def size (f : File) : Nat :=
  64 + columnsSize f.fields + (f.batches.map (batchSize f.fields)).foldl (· + ·) 0 + 8 +
    closingSize f.fields f.batches.length + 10

theorem columnsSize_standardFields : columnsSize standardFields = 192 := by decide

theorem closingSize_standardFields : closingSize standardFields 1 = 192 := by decide +kernel

/-- Of the numbers in the description of a batch only zeros change its size. -/
theorem batchHeadSize_standardFields {count body : Nat} (hCount : 0 < count) (hBody : 0 < body) :
    batchHeadSize standardFields count body = 256 := by
  have hOne : batchHeadSize standardFields 1 1 = 256 := by decide
  rw [← hOne]
  simp [batchHeadSize, Nat.ne_of_gt hCount, Nat.ne_of_gt hBody]

/-- What each of the two columns that the catalog writes takes. -/
def standardCellsSize (texts : List String) : Nat :=
  padded ((texts.length + 7) / 8) + padded (4 * (texts.length + 1)) +
    padded (Field.textSize (texts.map some))

theorem bodySize_standardFields {rows : List (String × String)} (h : rows ≠ []) :
    bodySize standardFields (rows.map fun (key, value) => { key := some key, value := some value })
      = standardCellsSize (rows.map (·.1)) + standardCellsSize (rows.map (·.2)) := by
  simp [bodySize, standardFields, standardCellsSize, Field.cellsSize, List.zipIdx, Row.cell,
    Function.comp_def, h, Nat.add_assoc]

/-- The size of a file that the catalog writes: a fixed part and its two columns. -/
theorem size_ofRows {rows : List (String × String)} (h : rows ≠ []) :
    (ofRows rows).size =
      722 + standardCellsSize (rows.map (·.1)) + standardCellsSize (rows.map (·.2)) := by
  have hLength : 0 < rows.length := List.length_pos_iff.mpr h
  have hCells : 0 < standardCellsSize (rows.map (·.1)) := by
    have hOffsets : 0 < padded (4 * ((rows.map (·.1)).length + 1)) := padded_pos (by omega)
    rw [standardCellsSize]
    omega
  simp only [size, ofRows, batchSize, List.map_cons, List.map_nil, List.foldl_cons,
    List.foldl_nil, List.length_cons, List.length_nil, Nat.zero_add]
  rw [bodySize_standardFields h, columnsSize_standardFields, closingSize_standardFields,
    batchHeadSize_standardFields (by simpa using hLength) (by omega)]
  omega

end File

end SnapshotCatalog.Node
