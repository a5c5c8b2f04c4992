import SnapshotCatalog.Proofs.References
/-!
The row table of a root. Its keys are those of namespaces and tables, and no table outlives its
namespace: a namespace is only dropped when no key begins as those of its tables do, and since names
are padded to one size, such keys are its tables and nothing else, however its name begins. So every
key can be decoded, and every table is listed exactly once.
-/
namespace SnapshotCatalog

open Storage (Memory)

/-- A stored version took no more bytes than its lakehouse allows. -/
theorem Records.size_le {site : Site} {m : Memory} {published : List Publication}
    (h : Records site m published) {i : Nat} {p : Publication} (hp : published[i]? = some p)
    {d : LakehouseDef} (hGoverns : Governs site m p.root.lakehouseDefPath d) :
    p.root.blob.size ≤ d.nodeFileMax.toNat := by
  cases i with
  | zero =>
      obtain ⟨founding, path, time, -, hFounded, hSize, hRoot⟩ := h.first p hp
      rw [hRoot] at hGoverns ⊢
      obtain rfl := hFounded.unique hGoverns
      exact Lakehouse.size_le_of_checkSize hSize
  | succ i =>
      have hLength := (List.getElem?_eq_some_iff.mp hp).1
      have hBefore : published[i]? = some published[i] := List.getElem?_eq_getElem (by omega)
      obtain ⟨version, handle, limited, draft, time, -, -, hSound, hDraft, hSize, hRoot⟩ :=
        h.next i _ p hBefore hp
      obtain ⟨location, -, -, -, rfl⟩ := Lakehouse.draft_eq_ok hDraft
      rw [hRoot] at hGoverns ⊢
      obtain rfl := hSound.governs_running.unique hGoverns
      exact Lakehouse.size_le_of_checkSize hSize

/-- The rows of a root are those of namespaces and of tables, under names that are accepted, and the
namespace of every table has a row. -/
structure Root.Tidy (limits : KeyLimits) (r : Root) : Prop where
  known : ∀ key path, r.rows.get? key = some path →
    (∃ ns, Name.check "namespace" ns limits.ns = .ok () ∧ Key.ofNamespace limits ns = .ok key) ∨
      ∃ ns table, Name.check "namespace" ns limits.ns = .ok () ∧
        Name.check "table" table limits.table = .ok () ∧ Key.ofTable limits ns table = .ok key
  housed : ∀ ns table key path, Key.ofTable limits ns table = .ok key →
    r.rows.get? key = some path → ∃ above place, Key.ofNamespace limits ns = .ok above ∧
      r.rows.get? above = some place

/-- Rows that depict a catalog are tidy. -/
theorem Depicts.tidy {site : Site} {m : Memory} {limits : KeyLimits} {r : Root} {c : Catalog}
    (h : Depicts site m limits r.rows c) : r.Tidy limits where
  known key path hRow := by
    rcases h.key_cases hRow with ⟨ns, hKey⟩ | ⟨ns, table, hKey⟩
    · have hNs := (Key.ofNamespace_eq_ok_iff.mp hKey).1
      exact .inl ⟨ns, Name.check_eq_ok_iff.mpr hNs, hKey⟩
    · have hNames := (Key.ofTable_eq_ok_iff.mp hKey).1
      exact .inr ⟨ns, table, Name.check_eq_ok_iff.mpr hNames.1, Name.check_eq_ok_iff.mpr hNames.2,
        hKey⟩
  housed ns table key path hKey hRow := by
    obtain ⟨shelf, -, hShelf, -⟩ := h.table_of_row hKey hRow
    obtain ⟨hNs, hGet⟩ := Catalog.shelf_eq_ok_iff.mp hShelf
    have hData := data?_ofNamespace c ns
    rw [hGet] at hData
    obtain ⟨place, hAbove, -⟩ := h.exists_row hData
    exact ⟨_, place, Key.ofNamespace_eq_ok_iff.mpr ⟨hNs, rfl⟩, hAbove⟩

namespace Catalog

variable {limits : KeyLimits} {c : Catalog} {ns : String}

/-- The names of the tables of a namespace, if it is there. -/
def tableNames (c : Catalog) (ns : String) : List String :=
  ((c.get? ns).map fun shelf => shelf.tables.keys).getD []

theorem tableNames_eq {shelf : Shelf} (h : c.get? ns = some shelf) :
    c.tableNames ns = shelf.tables.keys := by
  rw [tableNames, h]
  rfl

/-- A namespace that is not there is not found, or its name is refused before. -/
theorem shelf_of_not_mem (h : ns ∉ c.keys) : ∃ e, c.shelf limits ns = .error e ∧
    (Name.check "namespace" ns limits.ns = .error e ∨
      e = .objectNotFound (.entity "namespace" ns)) := by
  have hNone : c.get? ns = none := by
    cases hGet : c.get? ns with
    | none => rfl
    | some shelf => exact absurd (c.mem_keys_iff.mpr ⟨shelf, hGet⟩) h
  rw [shelf, hNone]
  cases Name.check "namespace" ns limits.ns with
  | ok value => exact ⟨_, rfl, .inr rfl⟩
  | error e => exact ⟨e, rfl, .inl rfl⟩

end Catalog

/-- In a catalog that rows depict, every namespace that is there is found. -/
theorem Depicts.shelf_of_mem {site : Site} {m : Memory} {limits : KeyLimits}
    {rows : TextMap String} {c : Catalog} (h : Depicts site m limits rows c) {ns : String}
    (hMem : ns ∈ c.keys) : ∃ shelf, c.get? ns = some shelf ∧ c.shelf limits ns = .ok shelf := by
  obtain ⟨shelf, hGet⟩ := c.mem_keys_iff.mp hMem
  have hData := data?_ofNamespace c ns
  rw [hGet] at hData
  exact ⟨shelf, hGet, Catalog.shelf_eq_ok_iff.mpr ⟨(h.accepted _ _ hData).1, hGet⟩⟩

namespace System

/-- What a transaction is told of the names in its catalog, for ever. Namespaces and the tables of
each of them are listed, a listing only fails where the namespace is not there, and every row of a
table is listed for its namespace and for no other. -/
structure Listed (site : Site) (store : Nat → Memory) (t : Transaction) (limits : KeyLimits)
    (names : List String) (tables : String → List String) : Prop where
  listed : (Query.showNamespaces.program site t).AlwaysEnds store (.ok (.names names))
  listedIn : ∀ ns ∈ names,
    ((Query.showTables ns).program site t).AlwaysEnds store (.ok (.names (tables ns)))
  missing : ∀ ns, ns ∉ names → ∃ e,
    ((Query.showTables ns).program site t).AlwaysEnds store (.error e) ∧
      (Name.check "namespace" ns limits.ns = .error e ∨
        e = .objectNotFound (.entity "namespace" ns))
  once : ∀ ns table key path, Key.ofTable limits ns table = .ok key →
    t.running.rows.get? key = some path → ns ∈ names ∧ table ∈ tables ns ∧
      ∀ other ∈ names, ∀ name ∈ tables other, Key.ofTable limits other name = .ok key → other = ns

variable {site : Site} {s : System} {r : Root} {d : LakehouseDef} {past : List Mutation}

theorem Reachable.listed (hReach : Reachable site s) (hOrigin : s.Origin site r d past)
    {store : Nat → Memory} (hUnfolds : s.Unfolds site store) {t : Transaction}
    (hRunning : t.running = r) :
    Listed site store t d.keyLimits (Catalog.ofChanges (past.map (·.change))).keys
      (Catalog.ofChanges (past.map (·.change))).tableNames := by
  have hAnswer := hReach.query_alwaysEnds hUnfolds hOrigin hRunning
  have hDepicts := hOrigin.depicts
  subst hRunning
  generalize Catalog.ofChanges (past.map (·.change)) = c at hAnswer hDepicts ⊢
  constructor
  · exact hAnswer .showNamespaces
  · intro ns hMem
    obtain ⟨shelf, hGet, hShelf⟩ := hDepicts.shelf_of_mem hMem
    have hEnds := hAnswer (.showTables ns)
    rwa [Catalog.answer, hShelf, Except.map, ← Catalog.tableNames_eq hGet] at hEnds
  · intro ns hMissing
    obtain ⟨e, hShelf, hWhy⟩ := Catalog.shelf_of_not_mem hMissing
    have hEnds := hAnswer (.showTables ns)
    rw [Catalog.answer, hShelf] at hEnds
    exact ⟨e, hEnds, hWhy⟩
  · intro ns table key path hKey hRow
    obtain ⟨shelf, definition, hShelf, hTable, -⟩ := hDepicts.table_of_row hKey hRow
    have hGet := (Catalog.shelf_eq_ok_iff.mp hShelf).2
    refine ⟨c.mem_keys_iff.mpr ⟨shelf, hGet⟩, ?_, ?_⟩
    · rw [Catalog.tableNames_eq hGet]
      exact shelf.tables.mem_keys_iff.mpr ⟨definition, hTable⟩
    · intro other _ name _ hOther
      obtain ⟨hNames, rfl⟩ := Key.ofTable_eq_ok_iff.mp hKey
      obtain ⟨hOtherNames, hSame⟩ := Key.ofTable_eq_ok_iff.mp hOther
      exact (Slot.ofTable.inj (Slot.key_injective hOtherNames hNames hSame)).1

/-- Whatever clients have done, the rows of a root that is committed or private to a transaction are
those of namespaces and of tables in namespaces that are there, a committed root was small enough for
its lakehouse, and every table is listed exactly once, whatever clients do next. -/
theorem Reachable.rows_tidy (hReach : Reachable site s) (hUses : s.Uses site r) :
    ∃ d : LakehouseDef, site.Defines s.store r.lakehouseDefPath d ∧ r.Tidy d.keyLimits ∧
      (∀ v blob, site.rootAt? s.store v = some r →
        s.store.get? (site.resolve (RootPath.ofVersion v)) = some blob →
          blob.size ≤ d.nodeFileMax.toNat) ∧
      ∃ names tables, ∀ store, s.Unfolds site store → ∀ t : Transaction, t.running = r →
        Listed site store t d.keyLimits names tables := by
  obtain ⟨d, past, hOrigin⟩ := hReach.origin hUses
  obtain ⟨published, hSound⟩ := hReach.sound
  have hGoverns := hOrigin.governs
  refine ⟨d, hGoverns.lies.defines (d.decode_encode hGoverns.fits), hOrigin.depicts.tidy, ?_, _, _,
    fun store hUnfolds t hRunning => hReach.listed hOrigin hUnfolds hRunning⟩
  intro v blob hRoot hGet
  rw [hSound.records.rootAt?_eq] at hRoot
  rw [hSound.records.stored v] at hGet
  obtain ⟨p, hp, rfl⟩ := Option.map_eq_some_iff.mp hRoot
  rw [hp] at hGet
  cases hGet
  exact hSound.records.size_le hp hGoverns

end System

/-- The version that the sample session commits, also after its namespace was dropped. -/
theorem System.rows_tidy_acrossRemoval : ∃ s s' r, ∃ d : LakehouseDef, ∃ names tables,
    Reachable .top s ∧ Steps .top s s' ∧ Site.top.rootAt? s.store 1 = some r ∧
    r.rows.entries ≠ [] ∧ Site.top.Defines s.store r.lakehouseDefPath d ∧ r.Tidy d.keyLimits ∧
    (∃ blob, s.store.get? (Site.top.resolve (RootPath.ofVersion 1)) = some blob ∧
      blob.size ≤ d.nodeFileMax.toNat) ∧
    ∀ t : Transaction, t.running = r →
      Listed .top (fun now => if now = 0 then s.store else s'.store) t d.keyLimits names tables := by
  obtain ⟨s, s', hReach, hSteps, hStore, -⟩ :=
    Session.exists_steps .top (.counting 5) Session.sample Session.removal Session.fits_removal
  obtain ⟨r, hRoot, hRow⟩ := Session.exists_row_afterSample
  rw [Session.afterSample, ← hStore] at hRoot
  obtain ⟨blob, hGet, -⟩ := Option.bind_eq_some_iff.mp hRoot
  obtain ⟨d, hDefines, hTidy, hSmall, names, tables, hListed⟩ :=
    hReach.rows_tidy (.committed hRoot)
  exact ⟨s, s', r, d, names, tables, hReach, hSteps, hRoot, hRow, hDefines, hTidy,
    ⟨blob, hGet, hSmall 1 blob hRoot hGet⟩, hListed _ (unfolds_of_steps hSteps)⟩

end SnapshotCatalog
