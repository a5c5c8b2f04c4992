import SnapshotCatalog.Proofs.Snapshots
/-!
Referential integrity. Every path that a root in use names, the one of its lakehouse definition and
the ones of its rows, leads to a stored object that decodes to what was passed to the call which put
the path there. A definition is stored before a row names it, and it is never changed afterwards.
-/
namespace SnapshotCatalog

open Storage (Memory)

/-- The object at a path is there and decodes to a definition. -/
def Site.Defines {α : Type} [Definition α] (site : Site) (m : Memory) (path : String) (x : α) :
    Prop :=
  ∃ blob, m.get? (site.resolve path) = some blob ∧ Definition.decode blob.data = .ok x

theorem Lies.defines {α : Type} [Definition α] {site : Site} {m : Memory} {path : String} {x : α}
    (h : Lies site m path (Definition.encode x))
    (hDecode : Definition.decode (Definition.encode x) = .ok x) : site.Defines m path x :=
  ⟨_, h.stored, hDecode⟩

/-- Bytes that two definitions of one kind lie in are those of one definition. -/
theorem Lies.eq_of_decode {α : Type} [Definition α] {site : Site} {m : Memory} {path : String}
    {x y : α} (h : Lies site m path (Definition.encode x))
    (hOther : Lies site m path (Definition.encode y))
    (hDecode : ∀ z : α, (Definition.encode z).length < UInt64.size →
      Definition.decode (Definition.encode z) = .ok z) : x = y := by
  have hSame := h.stored.symm.trans hOther.stored
  have hBytes : Definition.encode x = Definition.encode y :=
    Storage.Blob.bytes.inj (Option.some.inj hSame)
  have hFirst := hDecode x h.fits
  rw [hBytes, hDecode y hOther.fits] at hFirst
  exact (Except.ok.inj hFirst).symm

/-- What a change defines, if it is about a namespace. -/
theorem Change.of_namespaceKey {limits : KeyLimits} {c : Change} {ns key : String}
    {data : List UInt8} (hName : Key.ofNamespace limits ns = .ok key)
    (hKey : c.key limits = .ok key) (hData : c.definition?.map (·.1) = some data) :
    ∃ x : NamespaceDef, data = x.encode ∧ c ∈ [.createNamespace ns x, .alterNamespace ns x] := by
  obtain ⟨hNs, rfl⟩ := Key.ofNamespace_eq_ok_iff.mp hName
  obtain ⟨hAccepted, hSame⟩ := accepted_of_key hKey
  have hSlot := Slot.key_injective hAccepted hNs hSame
  cases c with
  | createNamespace other x =>
      cases hSlot
      cases hData
      exact ⟨x, rfl, by simp⟩
  | alterNamespace other x =>
      cases hSlot
      cases hData
      exact ⟨x, rfl, by simp⟩
  | dropNamespace other => cases hData
  | createTable other table x => cases hSlot
  | alterTable other table x => cases hSlot
  | dropTable other table => cases hData

/-- What a change defines, if it is about a table. -/
theorem Change.of_tableKey {limits : KeyLimits} {c : Change} {ns table key : String}
    {data : List UInt8} (hName : Key.ofTable limits ns table = .ok key)
    (hKey : c.key limits = .ok key) (hData : c.definition?.map (·.1) = some data) :
    ∃ x : TableDef, data = x.encode ∧ c ∈ [.createTable ns table x, .alterTable ns table x] := by
  obtain ⟨hNames, rfl⟩ := Key.ofTable_eq_ok_iff.mp hName
  obtain ⟨hAccepted, hSame⟩ := accepted_of_key hKey
  have hSlot := Slot.key_injective hAccepted hNames hSame
  cases c with
  | createNamespace other x => cases hSlot
  | alterNamespace other x => cases hSlot
  | dropNamespace other => cases hData
  | createTable other table x =>
      cases hSlot
      cases hData
      exact ⟨x, rfl, by simp⟩
  | alterTable other table x =>
      cases hSlot
      cases hData
      exact ⟨x, rfl, by simp⟩
  | dropTable other table => cases hData

namespace System

/-- A call in the log, a change of a transaction, put a path into the row of a key. -/
def Puts (s : System) (c : Change) (key path : String) : Prop :=
  ∃ client h t, Event.ended client (.change h c) (.ok (.transaction t)) ∈ s.log ∧
    t.running = h.transaction.running.withRow key path

/-- The path in a row leads to the definition that was passed to the call which put it there. -/
structure Refers {α : Type} [Definition α] (site : Site) (s : System) (limits : KeyLimits)
    (key path : String) (x : α) (calls : List Change) : Prop where
  defines : site.Defines s.store path x
  put : ∃ c ∈ calls, s.Puts c key path
  only : ∀ c, c.key limits = .ok key → s.Puts c key path → c ∈ calls

/-- What a root names is there. Its lakehouse definition is the one that version 0 was created with,
each of its keys is that of a namespace or of a table, and the path in each row leads to a definition
of that kind, the one passed to the call that put it there. -/
structure Intact (site : Site) (s : System) (r : Root) (d : LakehouseDef) : Prop where
  created : (s.published site)[0]? = some (0, .create d)
  founded : ∃ first, site.rootAt? s.store 0 = some first ∧
    first.lakehouseDefPath = r.lakehouseDefPath
  lakehouse : site.Defines s.store r.lakehouseDefPath d
  known : ∀ key path, r.rows.get? key = some path →
    (∃ ns, Key.ofNamespace d.keyLimits ns = .ok key) ∨
      ∃ ns table, Key.ofTable d.keyLimits ns table = .ok key
  ofNamespace : ∀ ns key path, Key.ofNamespace d.keyLimits ns = .ok key →
    r.rows.get? key = some path → ∃ x : NamespaceDef,
      s.Refers site d.keyLimits key path x [.createNamespace ns x, .alterNamespace ns x]
  ofTable : ∀ ns table key path, Key.ofTable d.keyLimits ns table = .ok key →
    r.rows.get? key = some path → ∃ x : TableDef,
      s.Refers site d.keyLimits key path x [.createTable ns table x, .alterTable ns table x]

/-- A transaction is told what its root names, for ever. -/
structure Described (site : Site) (store : Nat → Memory) (t : Transaction) (d : LakehouseDef) :
    Prop where
  lakehouse : (Query.describeLakehouse.program site t).AlwaysEnds store (.ok (.lakehouse d))
  ofNamespace : ∀ ns key path, Key.ofNamespace d.keyLimits ns = .ok key →
    t.running.rows.get? key = some path → ∃ x : NamespaceDef, site.Defines (store 0) path x ∧
      ((Query.describeNamespace ns).program site t).AlwaysEnds store (.ok (.ns x))
  ofTable : ∀ ns table key path, Key.ofTable d.keyLimits ns table = .ok key →
    t.running.rows.get? key = some path → ∃ x : TableDef, site.Defines (store 0) path x ∧
      ((Query.describeTable ns table).program site t).AlwaysEnds store (.ok (.table x))

variable {site : Site} {s : System} {r : Root} {d d' : LakehouseDef} {past : List Mutation}
  {key path : String}

/-- The limits that a change in the log was made under are those of the one lakehouse. -/
theorem Reachable.eq_of_governs (hReach : Reachable site s) (hOrigin : s.Origin site r d past)
    {client : Nat} {h : Handle} {c : Change} {outcome : Except Error Reply}
    (hEvent : Event.ended client (.change h c) outcome ∈ s.log)
    (hGoverns : Governs site s.store h.transaction.running.lakehouseDefPath d') : d' = d := by
  obtain ⟨_, _, hOther⟩ := hReach.origin (.running (hReach.attributed.log _ hEvent h rfl))
  exact (hGoverns.unique hOther.governs).trans (hOther.unique hOrigin)

/-- Every row was put there by a call about its key. -/
theorem Reachable.exists_puts (hReach : Reachable site s) (hOrigin : s.Origin site r d past)
    (hRow : r.rows.get? key = some path) :
    ∃ c : Change, c.key d.keyLimits = .ok key ∧ s.Puts c key path := by
  rcases exists_mutation_of_replay hOrigin.replayed hRow with hNever | ⟨mutation, hMem, hPlace, hKey⟩
  · cases hNever
  · obtain ⟨client, h, t, hEvent, -, d', key', hGoverns, hMade, rfl⟩ := hOrigin.made mutation hMem
    obtain rfl := hReach.eq_of_governs hOrigin hEvent hGoverns
    obtain rfl := Except.ok.inj (hMade.symm.trans hKey)
    refine ⟨mutation.change, hKey, client, h, _, hEvent, ?_⟩
    show mutation.touch h.transaction.running key' = _
    rw [Mutation.touch, hPlace]

/-- Where a call put a path, the definition that it brought lies there. -/
theorem Puts.lies {c : Change} (hPuts : s.Puts c key path) (hReach : Reachable site s)
    (hOrigin : s.Origin site r d past) (hKey : c.key d.keyLimits = .ok key) :
    ∃ data, c.definition?.map (·.1) = some data ∧ Lies site s.store path data := by
  obtain ⟨client, h, t, hEvent, hRunning⟩ := hPuts
  obtain ⟨drawn, hStored, d', key', hGoverns, hMade, rfl⟩ :=
    hReach.traced.changes client h c t hEvent
  obtain rfl := hReach.eq_of_governs hOrigin hEvent hGoverns
  obtain rfl := Except.ok.inj (hMade.symm.trans hKey)
  -- The call touched the row of its own key, so what is in that row now is what it brought.
  have hPlace : (⟨c, drawn⟩ : Mutation).place? = some path := by
    have hGet := congrArg (fun root : Root => root.rows.get? key') hRunning
    change (Mutation.touch _ _ key').rows.get? key' = _ at hGet
    rw [Depicts.get?_touch, if_pos rfl] at hGet
    simpa only [Root.rows_withRow, TextMap.get?_insert_self] using hGet
  have hLies := Depicts.lies_place? hStored
  rw [hPlace] at hLies
  generalize c.definition?.map (·.1) = data at hLies ⊢
  cases hLies with
  | some hLies => exact ⟨_, rfl, hLies⟩

/-- A row whose key only changes of one kind are about leads to what such a change brought. -/
theorem Reachable.refers {α : Type} [Definition α] {calls : α → List Change}
    (hReach : Reachable site s) (hOrigin : s.Origin site r d past)
    (hRow : r.rows.get? key = some path)
    (hDecode : ∀ x : α, (Definition.encode x).length < UInt64.size →
      Definition.decode (Definition.encode x) = .ok x)
    (hCalls : ∀ (c : Change) data, c.key d.keyLimits = .ok key →
      c.definition?.map (·.1) = some data → ∃ x, data = Definition.encode x ∧ c ∈ calls x) :
    ∃ x, s.Refers site d.keyLimits key path x (calls x) := by
  obtain ⟨c, hKey, hPuts⟩ := hReach.exists_puts hOrigin hRow
  obtain ⟨data, hData, hLies⟩ := hPuts.lies hReach hOrigin hKey
  obtain ⟨x, rfl, hMem⟩ := hCalls c data hKey hData
  refine ⟨x, hLies.defines (hDecode x hLies.fits), ⟨c, hMem, hPuts⟩, ?_⟩
  intro other hOtherKey hOther
  obtain ⟨data, hOtherData, hOtherLies⟩ := hOther.lies hReach hOrigin hOtherKey
  obtain ⟨y, rfl, hOtherMem⟩ := hCalls other data hOtherKey hOtherData
  rwa [hLies.eq_of_decode hOtherLies hDecode]

theorem Reachable.intact (hReach : Reachable site s) (hOrigin : s.Origin site r d past) :
    s.Intact site r d where
  created := hOrigin.created
  founded := hOrigin.founded
  lakehouse := hOrigin.governs.lies.defines (d.decode_encode hOrigin.governs.fits)
  known _ _ := hOrigin.depicts.key_cases
  ofNamespace _ _ _ hKey hRow :=
    hReach.refers hOrigin hRow (fun x => x.decode_encode) fun _ _ => Change.of_namespaceKey hKey
  ofTable _ _ _ _ hKey hRow :=
    hReach.refers hOrigin hRow (fun x => x.decode_encode) fun _ _ => Change.of_tableKey hKey

theorem Reachable.described (hReach : Reachable site s) (hOrigin : s.Origin site r d past)
    {store : Nat → Memory} (hUnfolds : s.Unfolds site store) {t : Transaction}
    (hRunning : t.running = r) : Described site store t d := by
  have hAnswer := hReach.query_alwaysEnds hUnfolds hOrigin hRunning
  have hDepicts := hOrigin.depicts
  subst hRunning
  rw [← hUnfolds.store_zero] at hDepicts
  constructor
  · exact hAnswer .describeLakehouse
  · intro ns key path hKey hRow
    obtain ⟨shelf, hShelf, hLies⟩ := hDepicts.shelf_of_row hKey hRow
    have hEnds := hAnswer (.describeNamespace ns)
    rw [Catalog.answer, hShelf] at hEnds
    exact ⟨_, hLies.defines (shelf.definition.decode_encode hLies.fits), hEnds⟩
  · intro ns table key path hKey hRow
    obtain ⟨shelf, x, hShelf, hTable, hLies⟩ := hDepicts.table_of_row hKey hRow
    have hNames := (Key.ofTable_eq_ok_iff.mp hKey).1
    have hFound := Catalog.table_eq_ok_iff.mpr
      ⟨hNames, shelf, (Catalog.shelf_eq_ok_iff.mp hShelf).2, hTable⟩
    have hEnds := hAnswer (.describeTable ns table)
    rw [Catalog.answer, hFound] at hEnds
    exact ⟨x, hLies.defines (x.decode_encode hLies.fits), hEnds⟩

/-- Referential integrity: whatever clients have done, a root that is committed or private to a
transaction names only objects that are stored and decode to what was passed to the calls that put
their paths there, so whoever asks for them is told, whatever clients do next. -/
theorem Reachable.references_intact (hReach : Reachable site s) (hUses : s.Uses site r) :
    ∃ d, s.Intact site r d ∧ ∀ store, s.Unfolds site store → ∀ t : Transaction, t.running = r →
      Described site store t d := by
  obtain ⟨d, past, hOrigin⟩ := hReach.origin hUses
  exact ⟨d, hReach.intact hOrigin, fun store hUnfolds t => hReach.described hOrigin hUnfolds⟩

end System

/-- The version that the sample session commits has a row. -/
theorem Session.exists_row_afterSample :
    ∃ r, Site.top.rootAt? afterSample.store 1 = some r ∧ r.rows.entries ≠ [] := by
  have hRows : (Site.top.rootAt? afterSample.store 1).any (!·.rows.entries.isEmpty) = true := by
    decide +kernel
  cases hRoot : Site.top.rootAt? afterSample.store 1 with
  | none =>
      rw [hRoot] at hRows
      cases hRows
  | some r =>
      rw [hRoot] at hRows
      exact ⟨r, rfl, by simpa using hRows⟩

/-- The version that the sample session commits, also after its namespace was dropped. -/
theorem System.references_intact_acrossRemoval : ∃ s s' r d, Reachable .top s ∧ Steps .top s s' ∧
    Site.top.rootAt? s.store 1 = some r ∧ r.rows.entries ≠ [] ∧ s.Intact .top r d ∧
    ∀ t : Transaction, t.running = r →
      Described .top (fun now => if now = 0 then s.store else s'.store) t d := by
  obtain ⟨s, s', hReach, hSteps, hStore, -⟩ :=
    Session.exists_steps .top (.counting 5) Session.sample Session.removal Session.fits_removal
  obtain ⟨r, hRoot, hRow⟩ := Session.exists_row_afterSample
  rw [Session.afterSample, ← hStore] at hRoot
  obtain ⟨d, hIntact, hDescribed⟩ := hReach.references_intact (.committed hRoot)
  exact ⟨s, s', r, d, hReach, hSteps, hRoot, hRow, hIntact,
    hDescribed _ (unfolds_of_steps hSteps)⟩

end SnapshotCatalog
