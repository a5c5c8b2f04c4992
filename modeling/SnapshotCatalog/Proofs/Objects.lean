import Mathlib.Data.List.Basic
import SnapshotCatalog.Proofs.Invariant
import SnapshotCatalog.Proofs.Names
/-!
The objects of a lakehouse by their paths. All its keys begin alike and go on with a path, so what a store
holds under keys with this beginning is a finite map of its own, in the same order. Writing and erasing
keys of the lakehouse does to this map what it does to the store, and nothing to any other key.
-/
namespace SnapshotCatalog

open Storage (Memory Blob)

/-! ### Beginnings of keys -/

namespace Text

theorem after?_eq_some_iff {start s rest : String} : after? start s = some rest ↔ s = start ++ rest := by
  constructor
  · intro h
    obtain ⟨cs, hcs, rfl⟩ := Option.map_eq_some_iff.mp h
    rw [← String.toList_inj, String.toList_append, String.toList_ofList]
    exact (List.isPrefixOf?_eq_some_iff_append_eq.mp hcs).symm
  · rintro rfl
    exact after?_append start rest

theorem startsWith_append_left (front : String) {s start : String} :
    startsWith (front ++ s) (front ++ start) = startsWith s start := by
  rw [Bool.eq_iff_iff, startsWith_iff, startsWith_iff, bytes_append, bytes_append,
    List.prefix_append_right_inj]

theorem before_of_append_left {front s t : String} (h : Before (front ++ s) (front ++ t)) :
    Before s t := by
  by_cases hBefore : Before s t
  · exact hBefore
  · by_cases hAfter : Before t s
    · exact absurd (before_append_left front hAfter) h.asymm
    · exact absurd (congrArg (front ++ ·) (eq_of_not_before hBefore hAfter)) h.ne

end Text

theorem Key.sort_of_sorted {keys : List String} (h : keys.Pairwise Text.Before) : sort keys = keys := by
  apply List.mergeSort_of_pairwise
  refine h.imp fun hBefore => ?_
  simp [hBefore.asymm]

namespace TextMap

variable {α : Type}

/-- The map without some keys. -/
def without (m : TextMap α) (keys : List String) : TextMap α :=
  ⟨m.entries.filter fun entry => !keys.contains entry.1, m.sorted.sublist List.filter_sublist⟩

theorem get?_without (m : TextMap α) (keys : List String) (key : String) :
    (m.without keys).get? key = if key ∈ keys then none else m.get? key := by
  apply Option.ext
  intro value
  rw [get?_eq_some_iff, without, List.mem_filter, ← get?_eq_some_iff]
  by_cases hMem : key ∈ keys
  · simp [hMem]
  · simp [hMem]

/-- Erasing keys one after another takes them out at once, whatever their order. -/
theorem foldl_erase (m : TextMap α) (keys : List String) : keys.foldl erase m = m.without keys := by
  apply ext
  intro key
  rw [get?_without]
  induction keys generalizing m with
  | nil => simp
  | cons first rest ih =>
      rw [List.foldl_cons, ih]
      by_cases hSame : key = first
      · simp [hSame]
      · rw [get?_erase_of_ne _ hSame]
        simp [hSame]

theorem mem_keys_iff_contains (m : TextMap α) {key : String} :
    key ∈ m.keys ↔ m.contains key = true := by
  rw [mem_keys_iff, contains, Option.isSome_iff_exists]

end TextMap

namespace Site

variable (site : Site)

theorem startsWith_resolve (path : String) : Text.startsWith (site.resolve path) site.keyStart = true := by
  rw [resolve_eq]
  exact Text.startsWith_append _ _

theorem sorted_below (m : Memory) :
    (m.entries.filterMap fun entry => (Text.after? site.keyStart entry.1).map (·, entry.2)).Pairwise
      fun a b => Text.Before a.1 b.1 := by
  rw [List.pairwise_filterMap]
  refine m.sorted.imp fun {a b} hBefore first hFirst second hSecond => ?_
  obtain ⟨path, hPath, rfl⟩ := Option.map_eq_some_iff.mp hFirst
  obtain ⟨other, hOther, rfl⟩ := Option.map_eq_some_iff.mp hSecond
  rw [Text.after?_eq_some_iff.mp hPath, Text.after?_eq_some_iff.mp hOther] at hBefore
  exact Text.before_of_append_left hBefore

/-- The objects of a lakehouse by their paths. -/
def objects (m : Memory) : TextMap Blob :=
  ⟨m.entries.filterMap fun entry => (Text.after? site.keyStart entry.1).map (·, entry.2),
    site.sorted_below m⟩

theorem get?_objects (m : Memory) (path : String) :
    (site.objects m).get? path = m.get? (site.resolve path) := by
  apply Option.ext
  intro blob
  rw [TextMap.get?_eq_some_iff, TextMap.get?_eq_some_iff, objects, List.mem_filterMap, resolve_eq]
  constructor
  · rintro ⟨⟨key, found⟩, hMem, hPath⟩
    obtain ⟨rest, hRest, hSame⟩ := Option.map_eq_some_iff.mp hPath
    obtain ⟨rfl, rfl⟩ := Prod.mk.inj hSame
    rwa [← Text.after?_eq_some_iff.mp hRest]
  · intro hMem
    exact ⟨_, hMem, by rw [Text.after?_append]; rfl⟩

theorem contains_objects (m : Memory) (path : String) :
    (site.objects m).contains path = m.contains (site.resolve path) := by
  rw [TextMap.contains, TextMap.contains, get?_objects]

theorem objects_insert (m : Memory) (path : String) (blob : Blob) :
    site.objects (m.insert (site.resolve path) blob) = (site.objects m).insert path blob := by
  apply TextMap.ext
  intro other
  rw [get?_objects]
  by_cases hSame : other = path
  · rw [hSame, TextMap.get?_insert_self, TextMap.get?_insert_self]
  · rw [TextMap.get?_insert_of_ne _ fun h => hSame (site.resolve_injective h),
      TextMap.get?_insert_of_ne _ hSame, get?_objects]

/-- Erasing keys takes their paths out. -/
theorem objects_eraseAll (m : Memory) (paths : List String) :
    site.objects ((paths.map site.resolve).foldl TextMap.erase m) = (site.objects m).without paths := by
  apply TextMap.ext
  intro path
  rw [TextMap.foldl_erase, get?_objects, TextMap.get?_without, TextMap.get?_without, get?_objects]
  simp only [List.mem_map_of_injective site.resolve_injective]

/-- The paths behind the keys that a listing finds are those that begin as it was asked. -/
theorem paths_of_listing (m : Memory) (start : String) :
    ((m.scan (site.resolve start)).map Memory.metaOf).filterMap
        (fun object => Text.after? site.keyStart object.key) =
      (site.objects m).keys.filter fun path => Text.startsWith path start := by
  rw [TextMap.scan_eq_withStart, TextMap.withStart, TextMap.keys, objects, List.filterMap_map,
    List.filterMap_filter, List.map_filterMap, List.filter_filterMap]
  apply List.filterMap_congr
  rintro ⟨key, blob⟩ -
  show (if _ then Text.after? site.keyStart key else none) = Option.filter _ (Option.map _ (Option.map _ _))
  rw [resolve_eq]
  cases hAfter : Text.after? site.keyStart key with
  | none => simp
  | some path =>
      rw [Text.after?_eq_some_iff.mp hAfter, Text.startsWith_append_left]
      simp [Option.filter]

/-- The same objects are stored under all keys that do not begin as those of the lakehouse do. -/
def Spares (m after : Memory) : Prop :=
  ∀ key, Text.startsWith key site.keyStart = false → after.get? key = m.get? key

variable {site}

theorem Spares.refl (m : Memory) : site.Spares m m := fun _ _ => rfl

theorem Spares.trans {m between after : Memory} (h : site.Spares m between)
    (hNext : site.Spares between after) : site.Spares m after :=
  fun key hKey => (hNext key hKey).trans (h key hKey)

theorem ne_resolve {key : String} (hKey : Text.startsWith key site.keyStart = false) (path : String) :
    key ≠ site.resolve path := by
  rintro rfl
  rw [site.startsWith_resolve] at hKey
  cases hKey

theorem spares_insert (m : Memory) (path : String) (blob : Blob) :
    site.Spares m (m.insert (site.resolve path) blob) := by
  intro key hKey
  exact TextMap.get?_insert_of_ne m (ne_resolve hKey path) blob

theorem spares_eraseAll (m : Memory) (paths : List String) :
    site.Spares m ((paths.map site.resolve).foldl TextMap.erase m) := by
  induction paths generalizing m with
  | nil => exact .refl m
  | cons first rest ih =>
      have hFirst : site.Spares m (m.erase (site.resolve first)) := fun key hKey =>
        TextMap.get?_erase_of_ne m (ne_resolve hKey first)
      exact hFirst.trans (ih _)

end Site

end SnapshotCatalog
