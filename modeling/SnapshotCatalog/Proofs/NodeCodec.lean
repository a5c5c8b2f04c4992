import SnapshotCatalog.Node.Codec
import SnapshotCatalog.Node.Layout
import SnapshotCatalog.Proofs.TextMaps
/-!
Reading a node file gives back the root it was written for. The rows of a root come in key order, so
reading only ever appends to the rows read so far, and the rows that describe the root fill slots of
their own. Reading counts rows in 64 bits, which the size of a file keeps from being too few.
-/
namespace SnapshotCatalog

namespace Node

/-- Object rows in key order are appended to those that were read. -/
theorem absorb_entries {p : Partial} {entries : List (String × String)} {all : TextMap String}
    (hAll : all.entries = p.rows.entries ++ entries)
    (hMarks : ∀ entry ∈ entries, Key.hasMark entry.1 = true) :
    entries.foldlM Partial.absorb p = .ok { p with rows := all } := by
  induction entries generalizing p with
  | nil =>
      have hSame : all = p.rows := TextMap.eq_of_entries (by simpa using hAll)
      rw [hSame]
      rfl
  | cons entry rest ih =>
      obtain ⟨key, value⟩ := entry
      have hSorted := hAll ▸ all.sorted
      have hLast : ∀ entry ∈ p.rows.entries, Text.Before entry.1 key := fun entry hMem =>
        (List.pairwise_append.mp hSorted).2.2 entry hMem (key, value) List.mem_cons_self
      have hStep : p.absorb (key, value) = .ok { p with rows := p.rows.insert key value } := by
        rw [Partial.absorb, if_pos (hMarks _ List.mem_cons_self), TextMap.get?_of_last hLast]
        rfl
      have hNext : all.entries = (p.rows.insert key value).entries ++ rest := by
        rw [TextMap.entries_insert_of_last hLast, hAll, List.append_assoc]
        rfl
      rw [List.foldlM_cons, hStep]
      exact ih hNext fun entry hMem => hMarks entry (List.mem_cons_of_mem _ hMem)

theorem absorb_lakehouseDef {p : Partial} (h : p.lakehouseDefPath = none) (path : String) :
    p.absorb (Key.lakehouseDef, path) = .ok { p with lakehouseDefPath := some path } := by
  have hMark : ¬ Key.hasMark Key.lakehouseDef = true := by decide
  rw [Partial.absorb, if_neg hMark, if_pos rfl, h]
  rfl

theorem absorb_previousRoot {p : Partial} (h : p.previousRootPath = none) (previous : Option String) :
    (previous.toList.map (Key.previousRoot, ·)).foldlM Partial.absorb p =
      .ok { p with previousRootPath := previous } := by
  cases previous with
  | none =>
      obtain ⟨_, _, _, _, _, _⟩ := p
      cases h
      rfl
  | some path =>
      have hMark : ¬ Key.hasMark Key.previousRoot = true := by decide
      have hStep : p.absorb (Key.previousRoot, path) =
          .ok { p with previousRootPath := some path } := by
        rw [Partial.absorb, if_neg hMark, if_neg (by decide), if_pos rfl, h]
        rfl
      rw [Option.toList_some, List.map_singleton, List.foldlM_cons, hStep]
      rfl

theorem absorb_rollbackFromRoot {p : Partial} (h : p.rollbackFromRootPath = none)
    (rollback : Option String) :
    (rollback.toList.map (Key.rollbackFromRoot, ·)).foldlM Partial.absorb p =
      .ok { p with rollbackFromRootPath := rollback } := by
  cases rollback with
  | none =>
      obtain ⟨_, _, _, _, _, _⟩ := p
      cases h
      rfl
  | some path =>
      have hMark : ¬ Key.hasMark Key.rollbackFromRoot = true := by decide
      have hStep : p.absorb (Key.rollbackFromRoot, path) =
          .ok { p with rollbackFromRootPath := some path } := by
        rw [Partial.absorb, if_neg hMark, if_neg (by decide), if_neg (by decide), if_pos rfl, h]
        rfl
      rw [Option.toList_some, List.map_singleton, List.foldlM_cons, hStep]
      rfl

theorem absorb_createdAtMillis {p : Partial} (h : p.createdAt = none) (time : Millis) :
    p.absorb (Key.createdAtMillis, Numeral.ofInt time.toInt) =
      .ok { p with createdAt := some time } := by
  have hMark : ¬ Key.hasMark Key.createdAtMillis = true := by decide
  rw [Partial.absorb, if_neg hMark, if_neg (by decide), if_neg (by decide), if_neg (by decide),
    if_pos rfl, Numeral.readSigned_ofInt, h]
  rfl

theorem absorb_rowCount {p : Partial} (h : p.rowCount = none) {count : Nat}
    (hCount : count < UInt64.size) :
    p.absorb (Key.rowCount, Numeral.ofNat count) =
      .ok { p with rowCount := some (UInt64.ofNat count) } := by
  have hMark : ¬ Key.hasMark Key.rowCount = true := by decide
  have hRead : Numeral.readUnsigned (Numeral.ofNat count) = .ok (UInt64.ofNat count) := by
    have h := Numeral.readUnsigned_ofNat (UInt64.ofNat count)
    rwa [UInt64.toNat_ofNat_of_lt' hCount] at h
  rw [Partial.absorb, if_neg hMark, if_neg (by decide), if_neg (by decide), if_neg (by decide),
    if_neg (by decide), if_pos rfl, hRead, h]
  rfl

theorem batchTexts_ofRows (rows : List (String × String)) :
    batchTexts (rows.map fun (key, value) => { key := some key, value := some value }) =
      .ok rows := by
  have hTexts : (rows.map fun (key, value) =>
      ({ key := some key, value := some value } : Row)).filterMap
        (fun row => row.key.bind fun key => row.value.map (key, ·)) = rows := by
    rw [List.filterMap_map]
    exact List.filterMap_some
  rw [batchTexts, if_neg (by simp), if_neg (by simp), hTexts]

theorem decode_ofRows (rows : List (String × String)) :
    decode (File.ofRows rows) =
      (rows.foldlM Partial.absorb Partial.empty).bind Partial.finish := by
  have hFields : (File.ofRows rows).hasStandardFields = true := rfl
  have hBatch : (File.ofRows rows).batches.foldlM absorbBatch Partial.empty =
      rows.foldlM Partial.absorb Partial.empty := by
    show [_].foldlM absorbBatch Partial.empty = _
    rw [List.foldlM_cons, absorbBatch, batchTexts_ofRows]
    exact bind_pure _
  rw [decode, if_pos hFields, hBatch]
  rfl

/-- Reading the file of a root gives back the root, without its place and with the time it was
stamped with. -/
theorem decode_encode {r : Root} (time : Millis)
    (hMarks : ∀ entry ∈ r.rows.entries, Key.hasMark entry.1 = true)
    (hSize : r.rows.size < UInt64.size) :
    decode (encode r time) = .ok { r with location := none, createdAt := some time } := by
  have hCount : (UInt64.ofNat r.rows.size).toNat = r.rows.size := UInt64.toNat_ofNat_of_lt' hSize
  have hFold : (rowsOf r time).foldlM Partial.absorb Partial.empty =
      .ok ⟨some r.lakehouseDefPath, r.previousRootPath, r.rollbackFromRootPath, some time,
        some (UInt64.ofNat r.rows.size), r.rows⟩ := by
    rw [rowsOf, List.foldlM_append, List.foldlM_append, List.foldlM_append, List.foldlM_append,
      List.foldlM_cons, absorb_lakehouseDef rfl]
    show Except.bind (Except.bind (Except.bind (List.foldlM _ _ _) _) _) _ = _
    rw [absorb_previousRoot rfl]
    show Except.bind (Except.bind (List.foldlM _ _ _) _) _ = _
    rw [absorb_rollbackFromRoot rfl]
    show Except.bind (List.foldlM _ _ _) _ = _
    rw [List.foldlM_cons, absorb_createdAtMillis rfl]
    show Except.bind (List.foldlM _ _ _) _ = _
    rw [List.foldlM_cons, absorb_rowCount rfl hSize]
    show List.foldlM _ _ _ = _
    exact absorb_entries rfl hMarks
  rw [encode, decode_ofRows, hFold]
  exact if_pos hCount

/-- A file that the catalog writes has more bytes than the root has rows. -/
theorem size_lt_size_encode (r : Root) (time : Millis) : r.rows.size < (encode r time).size := by
  have hNil : rowsOf r time ≠ [] := by simp [rowsOf]
  have hLength : r.rows.size ≤ ((rowsOf r time).map (·.1)).length := by
    simp only [rowsOf, TextMap.size, List.length_map, List.length_append]
    omega
  have hOffsets := le_roundUp (by decide : 0 < 64) (4 * (((rowsOf r time).map (·.1)).length + 1))
  rw [encode, File.size_ofRows hNil, File.standardCellsSize]
  unfold padded
  omega

end Node

end SnapshotCatalog
