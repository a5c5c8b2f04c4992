import Mathlib.Data.List.TakeWhile
import SnapshotCatalog.Root
import SnapshotCatalog.Storage.Memory
import SnapshotCatalog.Proofs.TextMaps
/-!
Scans of a range of keys. In byte order the texts with one beginning follow the beginning without a gap:
what stands before the first key that is not before the beginning does not begin so, and neither does
anything after the first key that does not begin so. A scan that skips the former and stops at the latter
therefore finds what looking at every key would find.
-/
namespace SnapshotCatalog

open Storage (Memory)

/-- What comes after a text that is not before the beginning and does not begin so comes after all texts that
do. -/
theorem Text.before_of_not_startsWith {key start : String} (hNotBefore : ¬ Text.Before key start)
    (hOther : ¬ Text.startsWith key start = true) (rest : String) : Text.Before (start ++ rest) key := by
  refine Decidable.byContradiction fun hNotAfter => ?_
  have hStarts : Text.startsWith (start ++ rest) start = true := Text.startsWith_append start rest
  by_cases hBefore : Text.Before key (start ++ rest)
  · rw [Text.startsWith_of_before hNotBefore (Bool.eq_false_iff.mpr hOther) hBefore] at hStarts
    cases hStarts
  · exact hOther (Text.eq_of_not_before hBefore hNotAfter ▸ hStarts)

namespace TextMap

variable {α : Type}

/-- What a search of a map for a beginning is to find: the entries whose keys begin so, all of them and
nothing else, each once and in byte order of the keys. They are one run of the entries, between those whose
keys come before the beginning and those whose keys come after everything that begins so. -/
structure Finds (m : TextMap α) (start : String) (found : List (String × α)) : Prop where
  filtered : found = m.withStart start
  complete : ∀ key value,
    (key, value) ∈ found ↔ m.get? key = some value ∧ ∃ rest, key = start ++ rest
  ordered : (found.map (·.1)).Pairwise Text.Before
  once : (found.map (·.1)).Nodup
  run : ∃ skipped beyond, m.entries = skipped ++ found ++ beyond ∧
    (∀ entry ∈ skipped, Text.Before entry.1 start) ∧
    ∀ entry ∈ beyond, ∀ rest, Text.Before (start ++ rest) entry.1

/-- Where a property of entries never comes back once it is lost, nothing that is left after those that have
it has it. -/
theorem not_of_mem_dropWhile {holds : String × α → Bool} {entries : List (String × α)}
    (hLost : entries.Pairwise fun a b => holds b = true → holds a = true) {entry : String × α}
    (hMem : entry ∈ entries.dropWhile holds) : ¬ holds entry = true := by
  induction entries with
  | nil => cases hMem
  | cons first rest ih =>
      obtain ⟨hFirst, hRest⟩ := List.pairwise_cons.mp hLost
      by_cases hHolds : holds first = true
      · rw [List.dropWhile_cons_of_pos hHolds] at hMem
        exact ih hRest hMem
      · rw [List.dropWhile_cons_of_neg hHolds] at hMem
        rcases List.mem_cons.mp hMem with rfl | hMem
        · exact hHolds
        · exact fun hEntry => hHolds (hFirst entry hMem hEntry)

theorem mem_withStart_iff (m : TextMap α) (start key : String) (value : α) :
    (key, value) ∈ m.withStart start ↔ m.get? key = some value ∧ ∃ rest, key = start ++ rest := by
  rw [withStart, List.mem_filter, get?_eq_some_iff, Text.startsWith_iff_exists]

/-- What a scan finds is one run of the entries. They are cut where the scan begins, and what follows is cut
where it stops. -/
theorem exists_run_of_scan (m : TextMap α) (start : String) : ∃ skipped beyond,
    m.entries = skipped ++ m.scan start ++ beyond ∧
      (∀ entry ∈ skipped, Text.Before entry.1 start) ∧
      ∀ entry ∈ beyond, ∀ rest, Text.Before (start ++ rest) entry.1 := by
  let skipped := m.entries.takeWhile fun entry => decide (Text.Before entry.1 start)
  let later := m.entries.dropWhile fun entry => decide (Text.Before entry.1 start)
  let beyond := later.dropWhile fun entry => Text.startsWith entry.1 start
  have hCut : m.entries = skipped ++ later := List.takeWhile_append_dropWhile.symm
  have hLaterCut : later = m.scan start ++ beyond := List.takeWhile_append_dropWhile.symm
  have hNotBefore : ∀ entry ∈ later, ¬ Text.Before entry.1 start := fun entry hMem hBefore =>
    not_of_mem_dropWhile
      (m.sorted.imp fun hSorted hLater => decide_eq_true (hSorted.trans (of_decide_eq_true hLater)))
      hMem (decide_eq_true hBefore)
  have hLost : later.Pairwise fun a b =>
      Text.startsWith b.1 start = true → Text.startsWith a.1 start = true := by
    refine (m.sorted.sublist (List.dropWhile_sublist _)).imp_of_mem
      fun {a b} hFirst _ hSorted hStarts => ?_
    cases hOther : Text.startsWith a.1 start with
    | true => rfl
    | false =>
        rw [Text.startsWith_of_before (hNotBefore a hFirst) hOther hSorted] at hStarts
        exact hStarts
  refine ⟨skipped, beyond, by rw [List.append_assoc, ← hLaterCut, ← hCut], fun entry hMem => ?_,
    fun entry hMem => ?_⟩
  · have hSkipped := List.mem_takeWhile_imp hMem
    exact of_decide_eq_true hSkipped
  · exact Text.before_of_not_startsWith (hNotBefore entry ((List.dropWhile_sublist _).subset hMem))
      (not_of_mem_dropWhile hLost hMem)

/-- A scan finds what it is to find. -/
theorem finds_scan (m : TextMap α) (start : String) : m.Finds start (m.scan start) := by
  have hOrdered : ((m.scan start).map (·.1)).Pairwise Text.Before := by
    rw [scan_eq_withStart, withStart, List.pairwise_map]
    exact m.sorted.sublist List.filter_sublist
  exact {
    filtered := m.scan_eq_withStart start
    complete := fun key value => by rw [scan_eq_withStart, mem_withStart_iff]
    ordered := hOrdered
    once := hOrdered.imp Text.Before.ne
    run := m.exists_run_of_scan start }

end TextMap

/-- The keys that a store lists are the stored keys that begin so. -/
theorem Storage.Memory.keys_of_scan (m : Memory) (start : String) :
    ((m.scan start).map metaOf).map (·.key) = m.keys.filter (Text.startsWith · start) := by
  rw [TextMap.scan_eq_withStart, TextMap.withStart, TextMap.keys, List.filter_map, List.map_map]
  rfl

/-- Range scans are filters. The rows of a root whose keys begin in some way, whatever the beginning is, are
found by a scan of the keys, all of them, in key order and each once; and a store in memory lists exactly the
stored keys that begin so, in byte order, each with the size of its object. -/
theorem TextMap.range_scans :
    (∀ (r : Root) (start : String), r.rows.Finds start (r.rowsWithStart start)) ∧
      ∀ (m : Memory) (start : String), ∃ found, m.Finds start found ∧
        Memory.answer (.list start) m = (.ok (found.map Memory.metaOf), m) ∧
        (found.map Memory.metaOf).map (·.key) = m.keys.filter (Text.startsWith · start) :=
  ⟨fun r start => r.rows.finds_scan start, fun m start =>
    ⟨m.scan start, m.finds_scan start, rfl, m.keys_of_scan start⟩⟩

/-- Characters of one, two and three bytes stand around the run, and the beginning itself is a key. -/
example : ((TextMap.ofList [("ê", 1), ("éa", 2), ("z", 3), ("é", 4), ("€", 5)]).scan "é") =
    [("é", 4), ("éa", 2)] := by decide

/-- Everything begins with nothing. -/
example : ((TextMap.ofList [("ê", 1), ("z", 2), ("", 3)]).scan "") = [("", 3), ("z", 2), ("ê", 1)] := by
  decide

end SnapshotCatalog
