import SnapshotCatalog.Definition.Store
import SnapshotCatalog.Proofs.DefinitionCodec
import SnapshotCatalog.Proofs.NodeAcceptance
/-!
Definitions and roots both ways. The bytes of a definition read as the definition again. A root is read
back from its node file if and only if its rows have keys of objects and can be counted in 64 bits; reading
keeps to such rows, so whatever was read from any file, in whatever order its rows came, can be written and
is read back.
-/
namespace SnapshotCatalog

/-! ### Definitions -/

namespace Definition

/-- Whether values read back from their bytes, found anywhere. A buffer has a length of 64 bits, and longer
ones are never written. -/
def ReadBack (α : Type) [Definition α] : Prop :=
  ∀ (path : String) (d : α), (encode d).length < UInt64.size → parse path (encode d) = .ok d

theorem readBack_of_decode {α : Type} [Definition α]
    (h : ∀ d : α, (encode d).length < UInt64.size → decode (encode d) = .ok d) : ReadBack α := by
  intro path d hSize
  rw [parse, h d hSize]

/-- Definitions of lakehouses, namespaces and tables read back. -/
theorem definitions_read_back :
    ReadBack LakehouseDef ∧ ReadBack NamespaceDef ∧ ReadBack TableDef :=
  ⟨readBack_of_decode LakehouseDef.decode_encode, readBack_of_decode NamespaceDef.decode_encode,
    readBack_of_decode TableDef.decode_encode⟩

/-- Limits of zero, of two bytes and as high as they go, and a property without name and value. -/
def oddLakehouse : LakehouseDef :=
  ⟨0, 300, 4294967295, 18446744073709551615, .ofList [("", ""), ("é", "𝄞"), ("n", "")]⟩

/-- A column without anything between two that are the same. -/
def oddTable : TableDef :=
  ⟨[⟨"id", "", true⟩, Column.blank, ⟨"id", "", true⟩], .ofList [("", "x")], "s3://é"⟩

theorem definitions_read_back_odd :
    parse "l" (encode oddLakehouse) = .ok oddLakehouse ∧
      encode NamespaceDef.blank = [] ∧ parse "n" (encode NamespaceDef.blank) = .ok NamespaceDef.blank ∧
      [0x0a, 0x00] <:+: encode oddTable ∧ parse "t" (encode oddTable) = .ok oddTable := by
  obtain ⟨hLakehouse, hNamespace, hTable⟩ := definitions_read_back
  exact ⟨hLakehouse "l" oddLakehouse (by decide +kernel), rfl, hNamespace "n" .blank (by decide +kernel),
    by decide +kernel, hTable "t" oddTable (by decide +kernel)⟩

end Definition

/-! ### Node files -/

/-- What every step keeps is kept by all steps together. -/
theorem kept_of_foldlM {ε α σ : Type} {P : σ → Prop} {step : σ → α → Except ε σ}
    (hStep : ∀ {s a s'}, P s → step s a = .ok s' → P s') {list : List α} {s s' : σ} (h : P s)
    (hFold : list.foldlM step s = .ok s') : P s' := by
  induction list generalizing s with
  | nil =>
      cases hFold
      exact h
  | cons a rest ih =>
      rw [List.foldlM_cons] at hFold
      cases hFirst : step s a with
      | error e =>
          rw [hFirst] at hFold
          cases hFold
      | ok next =>
          rw [hFirst] at hFold
          exact ih (hStep h hFirst) hFold

namespace Node

namespace Partial

/-- Whether all rows read so far have keys of objects. -/
def Marked (p : Partial) : Prop := ∀ key value, p.rows.get? key = some value → Key.hasMark key = true

theorem marked_empty : empty.Marked := by
  intro key value hGet
  cases hGet

theorem eq_of_once {α β : Type} {key : String} {slot : Option α} {next kept : β}
    (h : once key slot next = .ok kept) : kept = next := by
  rw [once] at h
  split at h
  · cases h
  · exact (Except.ok.inj h).symm

/-- Only a row with the key of an object becomes one of the rows that are kept. -/
theorem rows_of_absorb {p q : Partial} {key value : String} (h : p.absorb (key, value) = .ok q) :
    q.rows = p.rows ∨ Key.hasMark key = true ∧ q.rows = p.rows.insert key value := by
  by_cases hMark : Key.hasMark key = true
  · rw [absorb, if_pos hMark] at h
    exact .inr ⟨hMark, congrArg rows (eq_of_once h)⟩
  -- Every other row sets a field of its own or is refused.
  left
  rw [absorb, if_neg hMark] at h
  split at h
  · rw [eq_of_once h]
  split at h
  · rw [eq_of_once h]
  split at h
  · rw [eq_of_once h]
  split at h
  · split at h
    · cases h
    · rw [eq_of_once h]
  split at h
  · split at h
    · cases h
    · rw [eq_of_once h]
  · cases h

theorem Marked.absorb {p q : Partial} {row : String × String} (hMarked : p.Marked)
    (h : p.absorb row = .ok q) : q.Marked := by
  intro key value hGet
  rcases rows_of_absorb h with hRows | ⟨hMark, hRows⟩
  · rw [hRows] at hGet
    exact hMarked key value hGet
  · by_cases hSame : key = row.1
    · rwa [hSame]
    · rw [hRows, TextMap.get?_insert_of_ne _ hSame] at hGet
      exact hMarked key value hGet

theorem Marked.absorbBatch {p q : Partial} {batch : List Row} (hMarked : p.Marked)
    (h : absorbBatch p batch = .ok q) : q.Marked := by
  rw [Node.absorbBatch] at h
  cases hTexts : batchTexts batch with
  | error corruption =>
      rw [hTexts] at h
      cases h
  | ok texts =>
      rw [hTexts] at h
      exact kept_of_foldlM Marked.absorb hMarked h

end Partial

/-- Whether all rows have keys of objects and 64 bits can count them. -/
structure Writable (rows : TextMap String) : Prop where
  marks : ∀ key value, rows.get? key = some value → Key.hasMark key = true
  countable : rows.size < UInt64.size

/-- What is read has no place, has a time, and has rows that can be written. -/
theorem writable_of_finish {p : Partial} (hMarked : p.Marked) {r : Root} (h : p.finish = .ok r) :
    r.location = none ∧ r.createdAt.isSome = true ∧ Writable r.rows := by
  rw [Partial.finish] at h
  split at h
  · cases h
  split at h
  · cases h
  split at h
  · cases h
  next count _ =>
  split at h
  next hCount =>
    cases h
    exact ⟨rfl, rfl, hMarked, hCount ▸ count.toNat_lt⟩
  next => cases h

theorem writable_of_decode {file : File} {r : Root} (h : decode file = .ok r) :
    r.location = none ∧ r.createdAt.isSome = true ∧ Writable r.rows := by
  rw [decode] at h
  split at h
  · cases hFold : file.batches.foldlM absorbBatch Partial.empty with
    | error corruption =>
        rw [hFold] at h
        cases h
    | ok p =>
        rw [hFold] at h
        exact writable_of_finish (kept_of_foldlM Partial.Marked.absorbBatch Partial.marked_empty hFold) h
  · cases h

theorem decode_encode_iff (r : Root) (time : Millis) :
    decode (encode r time) = .ok { r with location := none, createdAt := some time } ↔
      Writable r.rows := by
  constructor
  · exact fun h => (writable_of_decode h).2.2
  · intro h
    apply decode_encode time _ h.countable
    rintro ⟨key, value⟩ hMem
    exact h.marks key value (r.rows.get?_eq_some_iff.mpr hMem)

end Node

namespace Chain

open Node

/-- Roots survive being written to a node file and read back, whatever their texts and times, unless a key
is none of an object's; and every node file that is read gives a root that survives this unchanged. -/
theorem nodes_read_back :
    (∀ (path : String) (r : Root) (time : Millis),
      parseNode path (.node (encode r time)) = .ok { r with location := none, createdAt := some time } ↔
        (∀ key value, r.rows.get? key = some value → Key.hasMark key = true) ∧
          r.rows.size < UInt64.size) ∧
      ∀ (path : String) (blob : Storage.Blob) (r : Root), parseNode path blob = .ok r →
        r.isPersisted = false ∧ ∃ time, r.createdAt = some time ∧
          ∀ other, parseNode other (.node (encode r time)) = .ok r := by
  constructor
  · intro path r time
    rw [parseNode_node, decode_encode_iff]
    exact ⟨fun h => ⟨h.marks, h.countable⟩, fun h => ⟨h.1, h.2⟩⟩
  · intro path blob r hRead
    cases blob with
    | bytes data => cases hRead
    | node file =>
        obtain ⟨hLocation, hTime, hRows⟩ := writable_of_decode (parseNode_node.mp hRead)
        obtain ⟨time, hTime⟩ := Option.isSome_iff_exists.mp hTime
        refine ⟨by rw [Root.isPersisted, hLocation, Option.isSome_none], time, hTime, fun other => ?_⟩
        rw [parseNode_node, (decode_encode_iff r time).mpr hRows, ← hLocation, ← hTime]

/-- A root with a place, a pointer and rows whose keys and texts are as odd as they may be. -/
def oddRoot : Root :=
  { location := some (.ofVersion 7), createdAt := none, lakehouseDefPath := "",
    previousRootPath := none, rollbackFromRootPath := some "é\n\x00",
    rows := .ofList [("C===", ""), ("B===é\n", "n_keys"), ("B===", "𝄞")] }

/-- A node file in two batches, which counts its row in an unusual way. -/
def oddFile : File :=
  ⟨File.standardFields,
    [[{ key := some "B===", value := some "" }, { key := some "n_keys", value := some "+01" }],
      [{ key := some "previous_root", value := some "-" }, { key := some "lakehouse_def", value := some "" },
        { key := some "created_at_millis", value := some "-9223372036854775808" }]]⟩

theorem nodes_read_back_odd :
    parseNode "a" (.node (encode oddRoot Int64.minValue)) =
        .ok { oddRoot with location := none, createdAt := some Int64.minValue } ∧
      ∃ r, parseNode "b" (.node oddFile) = .ok r ∧ r.isPersisted = false ∧
        ∃ time, r.createdAt = some time ∧
          ∀ other, parseNode other (.node (encode r time)) = .ok r := by
  have hMarks : ∀ entry ∈ oddRoot.rows.entries, Key.hasMark entry.1 = true := by decide +kernel
  constructor
  · refine (nodes_read_back.1 "a" oddRoot Int64.minValue).mpr ⟨?_, by decide +kernel⟩
    intro key value hGet
    exact hMarks _ (oddRoot.rows.get?_eq_some_iff.mp hGet)
  · have hRead : parseNode "b" (.node oddFile) =
        .ok ⟨none, some Int64.minValue, "", some "-", none, .ofList [("B===", "")]⟩ := rfl
    exact ⟨_, hRead, nodes_read_back.2 _ _ _ hRead⟩

end Chain

end SnapshotCatalog
