import SnapshotCatalog.Proofs.HeadLookup
import SnapshotCatalog.Proofs.Origins
/-!
Snapshots. Whatever clients do from some state on, a transaction that was handed out before sees what
it saw then, and so does every transaction that begins at a version that was committed before. The
objects that such a transaction reads are all stored already, and nothing that is stored is changed.
-/
namespace SnapshotCatalog

open Storage (Memory)
open Lakehouse

/-- A root that is stored as a version stays the root of that version. -/
theorem Site.Grows.rootAt? {site : Site} {m m' : Memory} (hGrows : site.Grows m m') {v : Version}
    {r : Root} (h : site.rootAt? m v = some r) : site.rootAt? m' v = some r := by
  obtain ⟨blob, hGet, hParse⟩ := Option.bind_eq_some_iff.mp h
  rw [Site.rootAt?, hGrows _ _ (site.resolve_ne_hint (RootPath.ofVersion_ne_hint v)) hGet]
  exact hParse

theorem Site.contains_of_rootAt? {site : Site} {m : Memory} {v : Version} {r : Root}
    (h : site.rootAt? m v = some r) :
    m.contains (site.resolve (RootPath.ofVersion v)) = true := by
  obtain ⟨blob, hGet, -⟩ := Option.bind_eq_some_iff.mp h
  rw [TextMap.contains, hGet]
  rfl

theorem System.Reachable.exists_rootAt? {site : Site} {s : System} (hReach : Reachable site s)
    {v : Version} (hStored : s.store.contains (site.resolve (RootPath.ofVersion v)) = true) :
    ∃ r, site.rootAt? s.store v = some r := by
  obtain ⟨published, hSound⟩ := hReach.sound
  have hVersion := (hSound.records.contains_root_iff v).mp hStored
  rw [hSound.records.rootAt?_eq, List.getElem?_eq_getElem hVersion]
  exact ⟨_, rfl⟩

/-- From a version that is stored every earlier one is found. -/
theorem Records.finds_version {site : Site} {m : Memory} {published : List Publication}
    (h : Records site m published) {v top : Version} {r : Root} (hRoot : site.rootAt? m v = some r)
    (hAbove : v ≤ top) (hTop : m.contains (site.resolve (RootPath.ofVersion top)) = true) :
    Finds site m ((Chain.Search.forVersion v).runFrom site top) (.ok r) := by
  rw [h.rootAt?_eq] at hRoot
  obtain ⟨p, hp, rfl⟩ := Option.map_eq_some_iff.mp hRoot
  exact h.finds_runFrom hp (UInt64.le_iff_toNat_le.mp hAbove) ((h.contains_root_iff top).mp hTop)

/-- Whenever a transaction begins at a root, and under whatever id, what follows ends alike. -/
theorem Program.AlwaysEnds.beginAt_bind {α : Type} {store : Nat → Memory} {root : Root}
    {isolation : IsolationLevel} {next : Transaction → Program α} {result : Except Error α}
    (h : ∀ id time, (next (.start id time isolation root)).AlwaysEnds store result) :
    ((beginAt root isolation).bind next).AlwaysEnds store result where
  alone now host hStore := (h host.nextTransactionId host.now).alone now _ hStore
  amid _ _ _ hRuns := by
    rcases hRuns.of_bind with ⟨t, _, hBegin, hRest⟩ | ⟨_, -, hBegin⟩
    · obtain ⟨id, time, hStart⟩ := exists_start_of_runsDuring hBegin
      obtain rfl := Except.ok.inj hStart
      exact (h id time).amid _ _ _ hRest
    · obtain ⟨_, _, hNever⟩ := exists_start_of_runsDuring hBegin
      cases hNever

namespace System

variable {site : Site} {s : System} {store : Nat → Memory}

/-- At every instant of a history the published versions are recorded, and a version that was
committed before is still there. -/
theorem Reachable.records_at (hReach : Reachable site s) (hUnfolds : s.Unfolds site store)
    {v : Version} {r : Root} (hRoot : site.rootAt? s.store v = some r) (now : Nat) :
    site.rootAt? (store now) v = some r ∧ ∃ published, Records site (store now) published := by
  obtain ⟨_, hSound⟩ := hReach.sound
  obtain ⟨hGrows, hAt⟩ := hSound.unfolds hUnfolds
  obtain ⟨s', published, hNow, -, hStore⟩ := hAt now
  rw [← hUnfolds.store_zero] at hRoot
  exact ⟨(Site.grows_of_le hGrows (Nat.zero_le now)).rootAt? hRoot, published,
    hStore ▸ hNow.records⟩

/-- While versions are published, a committed one is found from whatever head the search begins at,
unless a call fails. -/
theorem Reachable.eq_of_rootForVersion (hReach : Reachable site s)
    (hUnfolds : s.Unfolds site store) {v : Version} {r : Root}
    (hRoot : site.rootAt? s.store v = some r) {start finish : Nat} {outcome : Except Error Root}
    (hRuns : (Chain.rootForVersion site v).RunsDuring store start finish outcome) :
    outcome = .ok r ∨ Faulted outcome := by
  obtain ⟨_, hSound⟩ := hReach.sound
  have hGrows := (hSound.unfolds hUnfolds).1
  have hAscends := hReach.ascends hUnfolds
  have hThere (now : Nat) := hReach.records_at hUnfolds hRoot now
  rw [Chain.rootForVersion, Chain.Search.run_eq] at hRuns
  rcases hRuns.of_bind with ⟨top, middle, hLatest, hSearch⟩ | ⟨e, rfl, hLatest⟩
  · cases hAscends.tells_latestVersion hLatest with
    | newest hStart hFinish hHead =>
        -- The version was stored when the head was found, so the head is not below it; and the
        -- head is still stored when it is read, whatever was published above it since.
        have hAbove := (hHead.contains_iff v).mp (Site.contains_of_rootAt? (hThere _).1)
        have hTop := hAscends.kept_until hFinish ((hHead.contains_iff top).mpr (UInt64.le_refl top))
        obtain ⟨hFound, published, hRecords⟩ := hThere middle
        exact hSearch.eq_of_finds hGrows (hRecords.finds_version hFound hAbove hTop)
    | fault hFault => exact absurd hFault not_faulted_ok
  · cases hAscends.tells_latestVersion hLatest with
    | @none now hStart hFinish hNone =>
        have hStored := Site.contains_of_rootAt? (hThere now).1
        rw [hNone _ (RootPath.isRootPath_ofVersion v)] at hStored
        cases hStored
    | fault hFault => exact .inr hFault.of_error

theorem Reachable.rootForVersion_alwaysEnds (hReach : Reachable site s)
    (hUnfolds : s.Unfolds site store) {v : Version} {r : Root}
    (hRoot : site.rootAt? s.store v = some r) :
    (Chain.rootForVersion site v).AlwaysEnds store (.ok r) where
  alone now := by
    obtain ⟨hFound, published, hRecords⟩ := hReach.records_at hUnfolds hRoot now
    rw [hRecords.rootAt?_eq] at hFound
    obtain ⟨p, hp, rfl⟩ := Option.map_eq_some_iff.mp hFound
    exact (Host.shows site (store now)).yields_rootForVersion hRecords hp
  amid _ _ _ hRuns := hReach.eq_of_rootForVersion hUnfolds hRoot hRuns

/-- Every question about a root in use is answered for ever as by the catalog that the root goes
back to. -/
theorem Reachable.query_alwaysEnds (hReach : Reachable site s) (hUnfolds : s.Unfolds site store)
    {r : Root} {d : LakehouseDef} {past : List Mutation} (hOrigin : s.Origin site r d past)
    {t : Transaction} (hRunning : t.running = r) (q : Query) :
    (q.program site t).AlwaysEnds store
      ((Catalog.ofChanges (past.map (·.change))).answer d q) := by
  obtain ⟨published, hSound⟩ := hReach.sound
  have hGrows := (hSound.unfolds hUnfolds).1
  have hFirst : site.Grows s.store (store 0) := by
    rw [hUnfolds.store_zero]
    exact .refl s.store
  exact .of_finds hGrows (hOrigin.finds_query hFirst hRunning q)

/-- The calls that are answered from a snapshot: a question to a transaction that was handed out, and
a question to one that begins anew at a committed version. -/
inductive SnapshotCall (site : Site) (s : System) : Program Reply → Prop
  | through {h : Handle} (hMem : h ∈ s.handles) (q : Query) :
      SnapshotCall site s (q.program site h.transaction)
  | anew {v : Version} (hStored : s.store.contains (site.resolve (RootPath.ofVersion v)) = true)
      (isolation : IsolationLevel) (q : Query) :
      SnapshotCall site s ((beginAtVersion site v isolation).bind fun t => q.program site t)

theorem Reachable.snapshotCall_alwaysEnds (hReach : Reachable site s)
    (hUnfolds : s.Unfolds site store) {call : Program Reply} (hCall : s.SnapshotCall site call) :
    ∃ answer, call.AlwaysEnds store answer := by
  cases hCall with
  | through hMem q =>
      obtain ⟨d, past, hOrigin⟩ := hReach.origin (.running hMem)
      exact ⟨_, hReach.query_alwaysEnds hUnfolds hOrigin rfl q⟩
  | anew hStored isolation q =>
      obtain ⟨r, hRoot⟩ := hReach.exists_rootAt? hStored
      obtain ⟨d, past, hOrigin⟩ := hReach.origin (.committed hRoot)
      have hBegun : ((beginAt r isolation).bind fun t => q.program site t).AlwaysEnds store _ :=
        .beginAt_bind fun id time => hReach.query_alwaysEnds hUnfolds hOrigin rfl q
      rw [beginAtVersion, Program.bind_eq, Program.bind_assoc]
      exact ⟨_, (hReach.rootForVersion_alwaysEnds hUnfolds hRoot).bind hBegun⟩

/-- Snapshots are stable: what a call is answered in one state is what it is answered for ever,
through the same transaction or through one that begins anew at the same version, whatever clients do
meanwhile. -/
theorem Reachable.snapshots_stable (hReach : Reachable site s) (hUnfolds : s.Unfolds site store)
    {call : Program Reply} (hCall : s.SnapshotCall site call) {host : Host}
    (hStore : host.store = .ofBackend (.memory s.store)) :
    call.AlwaysEnds store (host.run call).1 := by
  obtain ⟨answer, hEnds⟩ := hReach.snapshotCall_alwaysEnds hUnfolds hCall
  have hNow := (hEnds.alone 0 host (hUnfolds.store_zero ▸ hStore)).1
  rwa [Host.run, hNow]

end System

/-! ### A namespace that is dropped -/

namespace Session

/-- The calls that go on from the sample session: the namespace is dropped again. -/
def removal : Session := [.begin .snapshot, .change 2 (.dropNamespace "ns"), .commit 3]

/-- The desk after the sample session and the removal. -/
def afterRemoval : Desk :=
  (run .top (Desk.answer .top (.counting 5) fun _ => .none) (sample ++ removal) [] .empty).2

/-- A question to a transaction that begins at the version in which the namespace is there. -/
def ask (q : Query) : Program Reply :=
  (beginAtVersion .top 1 .snapshot).bind fun t => q.program .top t

theorem fits_removal : ∀ op ∈ sample ++ removal, op.Fits := by decide +kernel

/-- Before the removal the namespace is there, and the removal publishes one more version. -/
theorem published_removal :
    (match ((Host.start (.memory afterSample.store) 5).run (ask (.namespaceExists "ns"))).1 with
      | .ok (.truth there) => there
      | _ => false) = true ∧
    afterRemoval.store.contains (Site.top.resolve (RootPath.ofVersion 2)) = true := by
  decide +kernel

end Session

/-- A namespace is still there in the version in which it was there, though a later version is
published without it. -/
theorem System.snapshots_stable_acrossRemoval : ∃ s s', Reachable .top s ∧ Steps .top s s' ∧
    s'.store.contains (Site.top.resolve (RootPath.ofVersion 2)) = true ∧
    (Session.ask (.namespaceExists "ns")).AlwaysEnds
      (fun now => if now = 0 then s.store else s'.store) (.ok (.truth true)) := by
  obtain ⟨s, s', hReach, hSteps, hStore, hLast⟩ :=
    Session.exists_steps .top (.counting 5) Session.sample Session.removal Session.fits_removal
  rw [← Session.afterSample] at hStore
  rw [← Session.afterRemoval] at hLast
  obtain ⟨hThere, hPublished⟩ := Session.published_removal
  rw [← hStore] at hThere
  have hStored : s.store.contains (Site.top.resolve (RootPath.ofVersion 1)) = true :=
    hStore ▸ Session.contains_afterSample
  have hEnds := hReach.snapshots_stable (unfolds_of_steps hSteps)
    (.anew hStored .snapshot (.namespaceExists "ns"))
    (show (Host.start (.memory s.store) 5).store = .ofBackend (.memory s.store) from rfl)
  refine ⟨s, s', hReach, hSteps, hLast ▸ hPublished, ?_⟩
  rw [Session.ask] at hThere ⊢
  split at hThere
  · next there hAnswer =>
    rw [hAnswer, hThere] at hEnds
    exact hEnds
  · cases hThere

end SnapshotCatalog
