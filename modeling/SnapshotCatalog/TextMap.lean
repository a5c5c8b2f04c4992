import SnapshotCatalog.Text.Bytes
/-!
Finite maps keyed by texts. The entries are kept in byte order of their keys, each key once, so
two maps with the same look-ups are the same map. The main statements are one equation per
operation through `get?`, extensionality, and that the range scan of a key prefix is the filter.
-/
namespace SnapshotCatalog

/-- Entries in byte order of their keys. -/
structure TextMap (α : Type) where
  entries : List (String × α)
  sorted : entries.Pairwise fun a b => Text.Before a.1 b.1

namespace TextMap

variable {α : Type}

instance [DecidableEq α] : DecidableEq (TextMap α) := fun left right =>
  decidable_of_iff (left.entries = right.entries)
    ⟨fun h => by cases left; cases right; cases h; rfl, fun h => h ▸ rfl⟩

instance : Inhabited (TextMap α) := ⟨⟨[], .nil⟩⟩

def empty : TextMap α := ⟨[], .nil⟩

/-- The value of a key. -/
def get? (m : TextMap α) (key : String) : Option α := m.entries.lookup key

def contains (m : TextMap α) (key : String) : Bool := (m.get? key).isSome

def size (m : TextMap α) : Nat := m.entries.length

def keys (m : TextMap α) : List String := m.entries.map (·.1)

/-- Puts an entry at its place, instead of an entry with the same key. -/
def insertEntry (key : String) (value : α) : List (String × α) → List (String × α)
  | [] => [(key, value)]
  | entry :: rest =>
    if Text.Before key entry.1 then (key, value) :: entry :: rest
    else if key = entry.1 then (key, value) :: rest
    else entry :: insertEntry key value rest

theorem mem_insertEntry {key : String} {value : α} {entries : List (String × α)}
    {entry : String × α} (h : entry ∈ insertEntry key value entries) :
    entry = (key, value) ∨ entry ∈ entries := by
  induction entries with
  | nil => simpa [insertEntry] using h
  | cons first rest ih =>
    rw [insertEntry] at h
    split at h
    · simpa using h
    · split at h
      · rcases List.mem_cons.mp h with h | h
        · exact .inl h
        · exact .inr (List.mem_cons_of_mem _ h)
      · rcases List.mem_cons.mp h with rfl | h
        · exact .inr List.mem_cons_self
        · exact (ih h).imp id (List.mem_cons_of_mem _)

theorem sorted_insertEntry {key : String} {value : α} {entries : List (String × α)}
    (h : entries.Pairwise fun a b => Text.Before a.1 b.1) :
    (insertEntry key value entries).Pairwise fun a b => Text.Before a.1 b.1 := by
  induction entries with
  | nil => simp [insertEntry]
  | cons first rest ih =>
    obtain ⟨hFirst, hRest⟩ := List.pairwise_cons.mp h
    rw [insertEntry]
    split
    · next hBefore =>
      refine List.pairwise_cons.mpr ⟨fun entry hMem => ?_, h⟩
      rcases List.mem_cons.mp hMem with rfl | hMem
      · exact hBefore
      · exact hBefore.trans (hFirst entry hMem)
    · next hNotBefore =>
      split
      · next hSame =>
        subst hSame
        exact List.pairwise_cons.mpr ⟨hFirst, hRest⟩
      · next hOther =>
        refine List.pairwise_cons.mpr ⟨fun entry hMem => ?_, ih hRest⟩
        rcases mem_insertEntry hMem with rfl | hMem
        · by_cases hAfter : Text.Before first.1 key
          · exact hAfter
          · exact absurd (Text.eq_of_not_before hNotBefore hAfter) hOther
        · exact hFirst entry hMem

/-- The map with one more entry. The key's former value, if it had one, is replaced. -/
def insert (m : TextMap α) (key : String) (value : α) : TextMap α :=
  ⟨insertEntry key value m.entries, sorted_insertEntry m.sorted⟩

/-- The map without a key. -/
def erase (m : TextMap α) (key : String) : TextMap α :=
  ⟨m.entries.filter (·.1 != key), m.sorted.sublist List.filter_sublist⟩

/-- The map of a list of entries; a later entry replaces an earlier one with its key. -/
def ofList (entries : List (String × α)) : TextMap α :=
  entries.foldl (fun m entry => m.insert entry.1 entry.2) empty

/-- The entries whose key begins with `start`, found by a scan from the first key that is not
before `start` up to the first key that does not begin with it. -/
def scan (m : TextMap α) (start : String) : List (String × α) :=
  (m.entries.dropWhile fun entry => decide (Text.Before entry.1 start)).takeWhile fun entry =>
    Text.startsWith entry.1 start

/-- The entries whose key begins with `start`, found by looking at every key. -/
def withStart (m : TextMap α) (start : String) : List (String × α) :=
  m.entries.filter fun entry => Text.startsWith entry.1 start

@[simp] theorem get?_empty (key : String) : (empty : TextMap α).get? key = none := rfl

theorem lookup_insertEntry_self (key : String) (value : α) (entries : List (String × α)) :
    (insertEntry key value entries).lookup key = some value := by
  induction entries with
  | nil => simp [insertEntry]
  | cons first rest ih =>
    obtain ⟨firstKey, firstValue⟩ := first
    simp only [insertEntry]
    split
    · simp
    · split
      · simp
      · next hOther => simp [List.lookup_cons, beq_eq_false_iff_ne.mpr hOther, ih]

theorem lookup_insertEntry_of_ne {key other : String} (h : other ≠ key) (value : α)
    (entries : List (String × α)) :
    (insertEntry key value entries).lookup other = entries.lookup other := by
  induction entries with
  | nil => simp [insertEntry, List.lookup_cons, beq_eq_false_iff_ne.mpr h]
  | cons first rest ih =>
    obtain ⟨firstKey, firstValue⟩ := first
    simp only [insertEntry]
    split
    · simp [List.lookup_cons, beq_eq_false_iff_ne.mpr h]
    · split
      · next hSame =>
        subst hSame
        simp [List.lookup_cons, beq_eq_false_iff_ne.mpr h]
      · simp [List.lookup_cons, ih]

@[simp] theorem get?_insert_self (m : TextMap α) (key : String) (value : α) :
    (m.insert key value).get? key = some value :=
  lookup_insertEntry_self key value m.entries

theorem get?_insert_of_ne (m : TextMap α) {key other : String} (h : other ≠ key) (value : α) :
    (m.insert key value).get? other = m.get? other :=
  lookup_insertEntry_of_ne h value m.entries

@[simp] theorem get?_erase_self (m : TextMap α) (key : String) : (m.erase key).get? key = none := by
  refine List.lookup_eq_none_iff.mpr fun entry hMem => ?_
  have h := (List.mem_filter.mp hMem).2
  simp only [bne_iff_ne, ne_eq] at h
  simpa using Ne.symm h

theorem get?_erase_of_ne (m : TextMap α) {key other : String} (h : other ≠ key) :
    (m.erase key).get? other = m.get? other := by
  show (m.entries.filter (·.1 != key)).lookup other = m.entries.lookup other
  induction m.entries with
  | nil => rfl
  | cons first rest ih =>
    obtain ⟨firstKey, firstValue⟩ := first
    by_cases hKey : firstKey = key
    · subst hKey
      simp [List.lookup_cons, beq_eq_false_iff_ne.mpr h, ih]
    · simp [hKey, List.lookup_cons, ih]

/-- An entry of a map is what a look-up of its key finds. -/
theorem get?_eq_some_iff (m : TextMap α) {key : String} {value : α} :
    m.get? key = some value ↔ (key, value) ∈ m.entries := by
  obtain ⟨entries, hSorted⟩ := m
  show entries.lookup key = some value ↔ (key, value) ∈ entries
  induction entries with
  | nil => simp
  | cons first rest ih =>
    obtain ⟨hFirst, hRest⟩ := List.pairwise_cons.mp hSorted
    obtain ⟨firstKey, firstValue⟩ := first
    by_cases hKey : key = firstKey
    · subst hKey
      constructor
      · intro h
        simp only [List.lookup_cons, beq_self_eq_true, Option.some.injEq] at h
        simp [h]
      · intro h
        rcases List.mem_cons.mp h with h | h
        · simp [(Prod.mk.inj h).2]
        · exact absurd (hFirst _ h) (Text.Before.irrefl key)
    · simp [List.lookup_cons, beq_eq_false_iff_ne.mpr hKey, ih hRest, hKey]

/-- Two maps with the same look-ups are the same map. -/
theorem ext {left right : TextMap α} (h : ∀ key, left.get? key = right.get? key) :
    left = right := by
  have hMem : ∀ entry, entry ∈ left.entries ↔ entry ∈ right.entries := fun (key, value) => by
    rw [← get?_eq_some_iff, ← get?_eq_some_iff, h key]
  obtain ⟨leftEntries, hLeft⟩ := left
  obtain ⟨rightEntries, hRight⟩ := right
  have hNodup : ∀ {entries : List (String × α)},
      entries.Pairwise (fun a b => Text.Before a.1 b.1) → entries.Nodup := fun hSorted =>
    hSorted.imp fun hBefore hSame => hBefore.ne (congrArg Prod.fst hSame)
  have hPerm : leftEntries.Perm rightEntries :=
    (List.perm_ext_iff_of_nodup (hNodup hLeft) (hNodup hRight)).mpr hMem
  have hSame : leftEntries = rightEntries :=
    List.Perm.eq_of_pairwise (fun _ _ _ _ hab hba => absurd hba hab.asymm) hLeft hRight hPerm
  subst hSame
  rfl

end TextMap

end SnapshotCatalog
