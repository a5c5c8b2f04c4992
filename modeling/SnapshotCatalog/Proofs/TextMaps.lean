import SnapshotCatalog.TextMap
/-!
More on finite maps keyed by texts. Writers put entries in key order, so a reader that inserts them
one after another only ever appends. The keys with one beginning stand next to each other, so a scan
up to the first key without it finds them all.
-/
namespace SnapshotCatalog

/-! ### Beginnings in byte order -/

theorem not_lt_of_prefix {start bytes : List UInt8} (h : start <+: bytes) : ¬ bytes < start := by
  obtain ⟨rest, rfl⟩ := h
  induction start with
  | nil => exact List.not_lt_nil _
  | cons b start ih =>
      rw [List.cons_append, List.cons_lt_cons_iff]
      rintro (hLess | ⟨-, hRest⟩)
      · exact absurd hLess (UInt8.lt_irrefl b)
      · exact ih hRest

/-- Beyond all that begins so, nothing begins so. -/
theorem not_prefix_of_lt {start bytes further : List UInt8} (hNotBefore : ¬ bytes < start)
    (hOther : ¬ start <+: bytes) (hFurther : bytes < further) : ¬ start <+: further := by
  rintro ⟨rest, rfl⟩
  induction start generalizing bytes with
  | nil => exact hOther List.nil_prefix
  | cons b start ih =>
      cases bytes with
      | nil => exact hNotBefore (List.nil_lt_cons b start)
      | cons a bytes =>
          rw [List.cons_append, List.cons_lt_cons_iff] at hFurther
          rcases hFurther with hLess | ⟨rfl, hFurther⟩
          · exact hNotBefore (List.cons_lt_cons_iff.mpr (.inl hLess))
          · refine ih (fun hBefore => hNotBefore (List.cons_lt_cons_iff.mpr (.inr ⟨rfl, hBefore⟩)))
              (fun hPrefix => hOther ?_) hFurther
            exact List.cons_prefix_cons.mpr ⟨rfl, hPrefix⟩

namespace Text

/-- A text begins so if it is the beginning with something behind it, and only then. -/
theorem startsWith_iff_exists {s start : String} :
    startsWith s start = true ↔ ∃ rest, s = start ++ rest := by
  constructor
  · intro h
    obtain ⟨rest, hRest⟩ := startsWith_iff.mp h
    have hEncoded : start.toList.utf8Encode ++ ⟨rest.toArray⟩ = s.toList.utf8Encode := by
      apply ByteArray.ext
      apply Array.toList_inj.mp
      simpa [bytes] using hRest
    -- Characters are told apart by their first bytes, so the cut lies between two of them.
    obtain ⟨cs, hcs⟩ := List.isPrefix_of_utf8Encode_append_eq_utf8Encode _ hEncoded
    refine ⟨String.ofList cs, ?_⟩
    rw [← String.toList_inj, String.toList_append, String.toList_ofList, hcs]
  · rintro ⟨rest, rfl⟩
    exact startsWith_append start rest

theorem not_before_of_startsWith {s start : String} (h : startsWith s start = true) :
    ¬ Before s start :=
  not_lt_of_prefix (startsWith_iff.mp h)

theorem startsWith_of_before {s start further : String} (hNotBefore : ¬ Before s start)
    (hOther : startsWith s start = false) (hFurther : Before s further) :
    startsWith further start = false := by
  rw [Bool.eq_false_iff] at hOther ⊢
  exact fun h => not_prefix_of_lt hNotBefore (fun hPrefix => hOther (startsWith_iff.mpr hPrefix))
    hFurther (startsWith_iff.mp h)

/-- Texts in byte order are determined by which texts they are. -/
theorem eq_of_sorted {texts others : List String} (h : texts.Pairwise Before)
    (hOthers : others.Pairwise Before) (hMem : ∀ s, s ∈ texts ↔ s ∈ others) : texts = others := by
  have hNodup {list : List String} (hSorted : list.Pairwise Before) : list.Nodup :=
    hSorted.imp Before.ne
  have hPerm : texts.Perm others :=
    (List.perm_ext_iff_of_nodup (hNodup h) (hNodup hOthers)).mpr hMem
  exact hPerm.eq_of_pairwise (fun _ _ _ _ hab hba => absurd hba hab.asymm) h hOthers

end Text

namespace TextMap

variable {α : Type}

theorem insertEntry_of_last {key : String} {entries : List (String × α)}
    (h : ∀ entry ∈ entries, Text.Before entry.1 key) (value : α) :
    insertEntry key value entries = entries ++ [(key, value)] := by
  induction entries with
  | nil => rfl
  | cons first rest ih =>
      have hFirst := h first List.mem_cons_self
      have hRest := ih fun entry hMem => h entry (List.mem_cons_of_mem first hMem)
      rw [insertEntry, if_neg hFirst.asymm, if_neg hFirst.ne.symm, hRest, List.cons_append]

theorem entries_insert_of_last {m : TextMap α} {key : String}
    (h : ∀ entry ∈ m.entries, Text.Before entry.1 key) (value : α) :
    (m.insert key value).entries = m.entries ++ [(key, value)] :=
  insertEntry_of_last h value

theorem get?_of_last {m : TextMap α} {key : String}
    (h : ∀ entry ∈ m.entries, Text.Before entry.1 key) : m.get? key = none := by
  cases hGet : m.get? key with
  | none => rfl
  | some value => exact absurd (h _ ((get?_eq_some_iff m).mp hGet)) (Text.Before.irrefl key)

theorem sorted_keys (m : TextMap α) : m.keys.Pairwise Text.Before := by
  rw [keys, List.pairwise_map]
  exact m.sorted

theorem mem_keys_iff (m : TextMap α) {key : String} :
    key ∈ m.keys ↔ ∃ value, m.get? key = some value := by
  rw [keys, List.mem_map]
  constructor
  · rintro ⟨⟨_, value⟩, hMem, rfl⟩
    exact ⟨value, m.get?_eq_some_iff.mpr hMem⟩
  · rintro ⟨value, hGet⟩
    exact ⟨(key, value), m.get?_eq_some_iff.mp hGet, rfl⟩

theorem takeWhile_startsWith {start : String} {entries : List (String × α)}
    (hSorted : entries.Pairwise fun a b => Text.Before a.1 b.1)
    (hNotBefore : ∀ entry ∈ entries, ¬ Text.Before entry.1 start) :
    (entries.takeWhile fun entry => Text.startsWith entry.1 start) =
      entries.filter fun entry => Text.startsWith entry.1 start := by
  induction entries with
  | nil => rfl
  | cons first rest ih =>
      obtain ⟨hFirst, hRest⟩ := List.pairwise_cons.mp hSorted
      have hFirstNotBefore := hNotBefore first List.mem_cons_self
      rw [List.takeWhile_cons, List.filter_cons]
      cases hStarts : Text.startsWith first.1 start with
      | true =>
          rw [if_pos rfl, if_pos rfl, ih hRest fun entry hMem =>
            hNotBefore entry (List.mem_cons_of_mem first hMem)]
      | false =>
          have hNone : rest.filter (fun entry => Text.startsWith entry.1 start) = [] :=
            List.filter_eq_nil_iff.mpr fun entry hMem => Bool.eq_false_iff.mp
              (Text.startsWith_of_before hFirstNotBefore hStarts (hFirst entry hMem))
          rw [if_neg Bool.false_ne_true, if_neg Bool.false_ne_true, hNone]

/-- A scan for a beginning finds every key that begins so. -/
theorem scan_eq_withStart (m : TextMap α) (start : String) : m.scan start = m.withStart start := by
  obtain ⟨entries, hSorted⟩ := m
  show (entries.dropWhile _).takeWhile _ = entries.filter _
  induction entries with
  | nil => rfl
  | cons first rest ih =>
      obtain ⟨hFirst, hRest⟩ := List.pairwise_cons.mp hSorted
      by_cases hBefore : Text.Before first.1 start
      · have hOther : ¬ Text.startsWith first.1 start = true := fun hStarts =>
          Text.not_before_of_startsWith hStarts hBefore
        rw [List.dropWhile_cons, if_pos (decide_eq_true hBefore), List.filter_cons, if_neg hOther]
        exact ih hRest
      · rw [List.dropWhile_cons, if_neg fun hDecided => hBefore (of_decide_eq_true hDecided)]
        refine takeWhile_startsWith hSorted fun entry hMem => ?_
        rcases List.mem_cons.mp hMem with rfl | hMem
        · exact hBefore
        · exact fun hEntry => hBefore ((hFirst entry hMem).trans hEntry)

theorem eq_of_entries {m other : TextMap α} (h : m.entries = other.entries) : m = other := by
  cases m
  cases other
  cases h
  rfl

/-! ### Maps that keep entries under other keys -/

/-- The entries of a map, whose keys are all valid, are kept at the places of their keys, and nothing else
is kept. -/
structure Mirrors (place : String → String) (valid : String → Prop) (m kept : TextMap α) : Prop where
  owned : ∀ key value, m.get? key = some value → valid key
  same : ∀ key, valid key → kept.get? (place key) = m.get? key
  onto : ∀ other value, kept.get? other = some value → ∃ key, valid key ∧ place key = other

namespace Mirrors

variable {place : String → String} {valid : String → Prop} {m kept : TextMap α} {key : String}

theorem empty (place : String → String) (valid : String → Prop) :
    Mirrors place valid (.empty : TextMap α) .empty :=
  ⟨fun key value hGet => by simp at hGet, fun key _ => by simp, fun other value hGet => by simp at hGet⟩

theorem contains_eq (h : Mirrors place valid m kept) (hKey : valid key) :
    kept.contains (place key) = m.contains key := by
  rw [contains, contains, h.same key hKey]

/-- What is kept is kept for an entry. -/
theorem contains_iff (h : Mirrors place valid m kept) (other : String) :
    kept.contains other = true ↔ ∃ key, m.contains key = true ∧ place key = other := by
  constructor
  · intro hKept
    obtain ⟨value, hGet⟩ := Option.isSome_iff_exists.mp hKept
    obtain ⟨key, hKey, rfl⟩ := h.onto other value hGet
    exact ⟨key, (h.contains_eq hKey).symm.trans hKept, rfl⟩
  · rintro ⟨key, hStored, rfl⟩
    obtain ⟨value, hGet⟩ := Option.isSome_iff_exists.mp hStored
    exact (h.contains_eq (h.owned key value hGet)).trans hStored

section Changes

-- A change at one place is no change at any other, because no valid key has the same place.
variable (hApart : ∀ key other, valid key → valid other → place key = place other → key = other)

include hApart

theorem insert (h : Mirrors place valid m kept) (hKey : valid key) (value : α) :
    Mirrors place valid (m.insert key value) (kept.insert (place key) value) where
  owned other found hGet := by
    by_cases hSame : other = key
    · exact hSame ▸ hKey
    · rw [get?_insert_of_ne m hSame] at hGet
      exact h.owned other found hGet
  same other hOther := by
    by_cases hSame : other = key
    · rw [hSame, get?_insert_self, get?_insert_self]
    · have hPlaces : place other ≠ place key := fun hPlaces => hSame (hApart _ _ hOther hKey hPlaces)
      rw [get?_insert_of_ne m hSame, get?_insert_of_ne kept hPlaces]
      exact h.same other hOther
  onto other found hGet := by
    by_cases hSame : other = place key
    · exact ⟨key, hKey, hSame.symm⟩
    · rw [get?_insert_of_ne kept hSame] at hGet
      exact h.onto other found hGet

theorem erase (h : Mirrors place valid m kept) (hKey : valid key) :
    Mirrors place valid (m.erase key) (kept.erase (place key)) where
  owned other found hGet := by
    by_cases hSame : other = key
    · exact hSame ▸ hKey
    · rw [get?_erase_of_ne m hSame] at hGet
      exact h.owned other found hGet
  same other hOther := by
    by_cases hSame : other = key
    · rw [hSame, get?_erase_self, get?_erase_self]
    · have hPlaces : place other ≠ place key := fun hPlaces => hSame (hApart _ _ hOther hKey hPlaces)
      rw [get?_erase_of_ne m hSame, get?_erase_of_ne kept hPlaces]
      exact h.same other hOther
  onto other found hGet := by
    by_cases hSame : other = place key
    · exact ⟨key, hKey, hSame.symm⟩
    · rw [get?_erase_of_ne kept hSame] at hGet
      exact h.onto other found hGet

end Changes

end Mirrors

end TextMap

end SnapshotCatalog
