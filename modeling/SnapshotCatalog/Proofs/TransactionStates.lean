import SnapshotCatalog.Host
import SnapshotCatalog.Proofs.Rejections
import SnapshotCatalog.Proofs.RootReads
/-!
The states of a transaction. It begins at a stored root, and the first change that succeeds makes a draft of
it, with which every later change goes on. A change that fails leaves the transaction as it was. So the
number of changes alone tells whether there is something to commit, and what the rows say does not matter.
-/
namespace SnapshotCatalog

open Program

/-! ### Roots that transactions hold -/

namespace Root

variable {r : Root} {definition : String}

/-- A root that was never stored and tells nothing of where it comes from but the definition of its
lakehouse. -/
structure IsDraft (r : Root) (definition : String) : Prop where
  location : r.location = none
  createdAt : r.createdAt = none
  lakehouseDefPath : r.lakehouseDefPath = definition
  previousRootPath : r.previousRootPath = none
  rollbackFromRootPath : r.rollbackFromRootPath = none

theorem IsDraft.not_isPersisted (h : r.IsDraft definition) : r.isPersisted ≠ true := by
  rw [isPersisted, h.location]
  exact Bool.false_ne_true

/-- The copy of a root that is changed next is a draft, whatever a stored root tells of its history. -/
theorem isDraft_mutableCopy (h : r.isPersisted = true ∨ r.IsDraft r.lakehouseDefPath) :
    r.mutableCopy.IsDraft r.lakehouseDefPath := by
  unfold mutableCopy
  split
  · exact ⟨rfl, rfl, rfl, rfl, rfl⟩
  · next hPrivate => exact h.resolve_left hPrivate

theorem isDraft_withRow (h : r.isPersisted = true ∨ r.IsDraft r.lakehouseDefPath) (key value : String) :
    (r.withRow key value).IsDraft r.lakehouseDefPath := by
  obtain ⟨hLocation, hTime, hDefinition, hPrevious, hRollback⟩ := isDraft_mutableCopy h
  exact ⟨hLocation, hTime, hDefinition, hPrevious, hRollback⟩

theorem isDraft_withoutRow (h : r.isPersisted = true ∨ r.IsDraft r.lakehouseDefPath) (key : String) :
    (r.withoutRow key).IsDraft r.lakehouseDefPath := by
  obtain ⟨hLocation, hTime, hDefinition, hPrevious, hRollback⟩ := isDraft_mutableCopy h
  exact ⟨hLocation, hTime, hDefinition, hPrevious, hRollback⟩

end Root

namespace Chain

variable {site : Site} {trace : List Exchange} {r : Root}

theorem isPersisted_of_latestRoot (h : (latestRoot site).Ran trace (.ok r)) : r.isPersisted = true := by
  rcases Ran.of_bind h with ⟨v, before, after, rfl, -, hRead⟩ | ⟨e, hNever, -⟩
  · rw [Root.isPersisted, hRead.of_readRoot.2 r rfl]
    rfl
  · cases hNever

theorem isPersisted_of_locationOf {location : Location} (h : locationOf r = .ok location) :
    r.isPersisted = true := by
  unfold locationOf at h
  split at h
  · next hLocation =>
    rw [Root.isPersisted, hLocation]
    rfl
  · cases h

namespace Search

variable {s : Search} {below : Nat} {head : Root}

/-- A search that finds a root ends with it here, or it goes on below. -/
theorem judged_of_down (h : (s.down site below head).Ran trace (.ok r)) :
    (∃ location, locationOf head = .ok location ∧ s.judge location head = some (.ok r)) ∨
      ∃ left found after, below = left + 1 ∧ (s.down site left found).Ran after (.ok r) := by
  rw [down] at h
  rcases h.of_ofExcept_bind with ⟨location, hLocation, hDown⟩ | ⟨e, -, -, hNever⟩
  · split at hDown
    · next result hJudge =>
      obtain ⟨-, rfl⟩ := hDown.of_ofExcept
      exact .inl ⟨location, hLocation, hJudge⟩
    · rcases hDown.of_bind with ⟨previous, before, after, rfl, -, hNext⟩ | ⟨e, hNever, -⟩
      · cases previous with
        | start => cases hNext.of_fail.2
        | broken path link => cases hNext.of_fail.2
        | root found =>
            cases below with
            | zero => cases hNext.of_fail.2
            | succ left => exact .inr ⟨left, found, after, rfl, hNext⟩
      · cases hNever
  · cases hNever

section Finding

variable (hJudge : ∀ location r found, s.judge location r = some (.ok found) → found = r)
include hJudge

theorem isPersisted_of_down (h : (s.down site below head).Ran trace (.ok r)) : r.isPersisted = true := by
  induction below generalizing head trace with
  | zero =>
      rcases judged_of_down h with ⟨location, hLocation, hFound⟩ | ⟨left, found, after, hNever, -⟩
      · exact hJudge _ _ _ hFound ▸ isPersisted_of_locationOf hLocation
      · cases hNever
  | succ below ih =>
      rcases judged_of_down h with ⟨location, hLocation, hFound⟩ | ⟨left, found, after, hLeft, hRest⟩
      · exact hJudge _ _ _ hFound ▸ isPersisted_of_locationOf hLocation
      · cases hLeft
        exact ih hRest

/-- A search that takes no root for another finds a root that is stored. -/
theorem isPersisted_of_run (h : (s.run site).Ran trace (.ok r)) : r.isPersisted = true := by
  rcases Ran.of_bind h with ⟨head, before, after, rfl, -, hRest⟩ | ⟨e, hNever, -⟩
  · rcases Ran.of_ofExcept_bind hRest with ⟨location, -, hRest⟩ | ⟨e, -, -, hNever⟩
    · exact isPersisted_of_down hJudge hRest
    · cases hNever
  · cases hNever

end Finding

end Search

theorem isPersisted_of_rootForVersion {v : Version} (h : (rootForVersion site v).Ran trace (.ok r)) :
    r.isPersisted = true := by
  refine Search.isPersisted_of_run (fun location r found hJudge => ?_) h
  simp only [Search.forVersion] at hJudge
  split at hJudge
  · cases hJudge
    rfl
  · split at hJudge <;> cases hJudge

end Chain

/-! ### Transactions and what is asked of them -/

namespace Transaction

variable {isolation : IsolationLevel} {t next start : Transaction}

/-- A transaction as it is delivered when one begins, at the newest version or at a version of choice,
whatever was answered. -/
inductive Begun (isolation : IsolationLevel) (t : Transaction) : Prop
  | newest {site : Site} {trace : List Exchange}
      (h : (Lakehouse.begin site isolation).Ran trace (.ok t)) : Begun isolation t
  | atVersion {site : Site} {version : Version} {trace : List Exchange}
      (h : (Lakehouse.beginAtVersion site version isolation).Ran trace (.ok t)) : Begun isolation t

/-- A change that was asked of a transaction, and how it ended. -/
structure Attempt where
  change : Change
  outcome : Except Error Transaction

def Attempt.succeeded (a : Attempt) : Bool := a.outcome.isOk

/-- From one transaction to another by attempts, wherever each is made and whatever is answered. A change
that succeeds delivers the transaction to go on with; after one that fails it is the one from before. -/
inductive Comes (start : Transaction) : List Attempt → Transaction → Prop
  | start : Comes start [] start
  | changed {past : List Attempt} {t next : Transaction} {site : Site} {c : Change}
      {trace : List Exchange} (h : Comes start past t) (hRan : (c.program site t).Ran trace (.ok next)) :
      Comes start (past ++ [⟨c, .ok next⟩]) next
  | failed {past : List Attempt} {t : Transaction} {site : Site} {c : Change} {e : Error}
      {trace : List Exchange} (h : Comes start past t) (hRan : (c.program site t).Ran trace (.error e)) :
      Comes start (past ++ [⟨c, .error e⟩]) t

/-- A transaction begins at a stored root, with the level that was asked for and without changes. -/
theorem Begun.eq_start (h : Begun isolation t) :
    ∃ id time root, root.isPersisted = true ∧ t = .start id time isolation root := by
  have hBegin {trace : List Exchange} {root : Root} (hRoot : root.isPersisted = true)
      (h : (Lakehouse.beginAt root isolation).Ran trace (.ok t)) :
      ∃ id time root, root.isPersisted = true ∧ t = .start id time isolation root := by
    obtain ⟨time, rest, rfl, hDrawn⟩ := Ran.of_clock_bind h
    cases hDrawn with
    | @request _ _ id _ _ hRest =>
        obtain ⟨-, hStart⟩ := hRest.of_done
        exact ⟨id, time, root, hRoot, Except.ok.inj hStart⟩
  cases h with
  | newest h =>
      rcases Ran.of_bind h with ⟨root, before, after, rfl, hRoot, hRest⟩ | ⟨e, hNever, -⟩
      · exact hBegin (Chain.isPersisted_of_latestRoot hRoot) hRest
      · cases hNever
  | atVersion h =>
      rcases Ran.of_bind h with ⟨root, before, after, rfl, hRoot, hRest⟩ | ⟨e, hNever, -⟩
      · exact hBegin (Chain.isPersisted_of_rootForVersion hRoot) hRest
      · cases hNever

end Transaction

/-- A change that succeeds sets or removes one row. -/
theorem Change.ran_ok {site : Site} {c : Change} {t next : Transaction} {trace : List Exchange}
    (h : (c.program site t).Ran trace (.ok next)) :
    ∃ key, next = t.withRunning (t.running.withoutRow key) ∨
      ∃ place, next = t.withRunning (t.running.withRow key place) := by
  rw [c.program_eq] at h
  rcases h.of_bind with ⟨key, look, rest, rfl, -, hPerform⟩ | ⟨e, hNever, -⟩
  · refine ⟨key, ?_⟩
    rcases c.perform_cases with ⟨-, hEq⟩ | ⟨β, _, x, path, -, hEq⟩
    · rw [hEq] at hPerform
      obtain ⟨-, hNext⟩ := hPerform.of_done
      exact .inl (Except.ok.inj hNext)
    · rw [hEq] at hPerform
      obtain ⟨id, rest, rfl, hDrawn⟩ := Ran.of_freshUuid_bind hPerform
      obtain ⟨result, -, hPlaced⟩ := Ran.of_map hDrawn
      cases result with
      | ok value => exact .inr ⟨path id, Except.ok.inj hPlaced⟩
      | error e => cases hPlaced
  · cases hNever

namespace Transaction

variable {isolation : IsolationLevel} {t next start : Transaction} {past : List Attempt} {count : Nat}

/-- Where a transaction stands after so many changes. What it was given when it began stays, and its root is
the one it began at until the first change and a draft of that root from then on. -/
structure Standing (start : Transaction) (count : Nat) (t : Transaction) : Prop where
  id : t.id = start.id
  beganAt : t.beganAt = start.beganAt
  isolation : t.isolation = start.isolation
  beginning : t.beginning = start.beginning
  changes : t.changes = count
  unchanged : count = 0 → t.running = start.beginning
  drafted : count ≠ 0 → t.running.IsDraft start.beginning.lakehouseDefPath

theorem Begun.stands (h : Begun isolation start) : Standing start 0 start := by
  obtain ⟨id, time, root, -, rfl⟩ := h.eq_start
  exact ⟨rfl, rfl, rfl, rfl, rfl, fun _ => rfl, fun hNever => absurd rfl hNever⟩

/-- A change that succeeds is one more change. -/
theorem Standing.changed (hPersisted : start.beginning.isPersisted = true) (h : Standing start count t)
    {site : Site} {c : Change} {trace : List Exchange} (hRan : (c.program site t).Ran trace (.ok next)) :
    Standing start (count + 1) next := by
  have hDefinition : t.running.lakehouseDefPath = start.beginning.lakehouseDefPath := by
    by_cases hNone : count = 0
    · rw [h.unchanged hNone]
    · exact (h.drafted hNone).lakehouseDefPath
  have hHeld : t.running.isPersisted = true ∨ t.running.IsDraft t.running.lakehouseDefPath := by
    by_cases hNone : count = 0
    · exact .inl (h.unchanged hNone ▸ hPersisted)
    · exact .inr (hDefinition ▸ h.drafted hNone)
  obtain ⟨running, hDraft, rfl⟩ : ∃ running, running.IsDraft t.running.lakehouseDefPath ∧
      next = t.withRunning running := by
    obtain ⟨key, rfl | ⟨place, rfl⟩⟩ := Change.ran_ok hRan
    · exact ⟨_, Root.isDraft_withoutRow hHeld key, rfl⟩
    · exact ⟨_, Root.isDraft_withRow hHeld key place, rfl⟩
  exact ⟨h.id, h.beganAt, h.isolation, h.beginning, congrArg (· + 1) h.changes,
    fun hNever => absurd hNever (Nat.succ_ne_zero _), fun _ => hDefinition ▸ hDraft⟩

theorem Standing.isPersisted_iff (hPersisted : start.beginning.isPersisted = true)
    (h : Standing start count t) : t.running.isPersisted = true ↔ count = 0 := by
  constructor
  · intro hStored
    by_contra hSome
    exact (h.drafted hSome).not_isPersisted hStored
  · intro hNone
    rw [h.unchanged hNone, hPersisted]

theorem Standing.running_eq_iff (hPersisted : start.beginning.isPersisted = true)
    (h : Standing start count t) : t.running = t.beginning ↔ count = 0 := by
  constructor
  · intro hSame
    rw [← h.isPersisted_iff hPersisted, hSame, h.beginning, hPersisted]
  · intro hNone
    rw [h.unchanged hNone, h.beginning]

/-- The changes of a transaction are the attempts that succeeded. -/
theorem Comes.stands (hBegun : Begun isolation start) (h : Comes start past t) :
    Standing start (past.countP Attempt.succeeded) t := by
  obtain ⟨id, time, root, hPersisted, hStart⟩ := hBegun.eq_start
  have hBeginning : start.beginning.isPersisted = true := hStart ▸ hPersisted
  induction h with
  | start => exact hBegun.stands
  | changed _ hRan ih =>
      rw [List.countP_append]
      exact ih.changed hBeginning hRan
  | failed _ hRan ih =>
      rw [List.countP_append]
      exact ih

end Transaction

/-! ### Commits -/

/-- A call to the store was answered with this error. -/
def Exchange.Reported (trace : List Exchange) (e : Error) : Prop :=
  ∃ c : Storage.Call, ⟨.call c, .error e⟩ ∈ trace

theorem Exchange.Reported.mono {trace more : List Exchange} {e : Error} (h : Reported trace e)
    (hMore : ∀ x ∈ trace, x ∈ more) : Reported more e := by
  obtain ⟨c, hMem⟩ := h
  exact ⟨c, hMore _ hMem⟩

/-- The errors that only the state of a transaction is the reason for. -/
inductive Error.IsOfState : Error → Prop
  | nothingToCommit : IsOfState (.invalidArgument .nothingToCommit)
  | beginningNotPersisted (id : TransactionId) : IsOfState (.invalidArgument (.beginningNotPersisted id))

section Commit

open Exchange

variable {site : Site} {trace : List Exchange} {e : Error} {t : Transaction}

/-- A definition that cannot be loaded has another error of its own. -/
theorem LakehouseDef.reported_of_load {path : String}
    (h : (load site path).Ran trace (.error e)) (hState : e.IsOfState) : Reported trace e := by
  have hRead : (site.read path).Ran trace (.error e) := by
    rcases h.of_bind with ⟨d, before, after, rfl, -, hValid⟩ | ⟨_, hSame, hLoad⟩
    · split at hValid
      · cases hValid.of_fail.2
        cases hState
      · cases hValid.of_done.2
    · cases hSame
      rcases hLoad.of_bind with ⟨blob, before, after, rfl, -, hParse⟩ | ⟨_, hSame, hRead⟩
      · obtain ⟨-, hFault⟩ := hParse.of_ofExcept
        rw [Definition.parse] at hFault
        split at hFault
        · cases hFault
        · cases hFault
          cases hState
      · cases hSame
        exact hRead
  rcases hRead.of_ofExcept_bind with ⟨key, -, hCall⟩ | ⟨_, hKey, -, hSame⟩
  · rw [hCall.of_call]
    exact ⟨_, List.mem_singleton_self _⟩
  · cases hSame
    rw [Site.key, Path.check] at hKey
    split at hKey
    · cases hKey
      cases hState
    · cases hKey

namespace Lakehouse

theorem PublishCourse.reported {version : Version} {d : LakehouseDef} {r : Root}
    (h : PublishCourse site version d r trace (.error e)) (hState : e.IsOfState) : Reported trace e := by
  cases h with
  | large hSize =>
      obtain ⟨-, rfl⟩ := checkSize_eq_error_iff.mp hSize
      cases hState
  | failed hSize => exact ⟨_, List.mem_cons_of_mem _ (List.mem_singleton_self _)⟩

/-- A commit blames the state of its transaction only if nothing could be drafted from it, or if the store
said so. -/
theorem CommitCourse.reported (h : CommitCourse site t trace (.error e)) (hState : e.IsOfState)
    (hDraft : draft t ≠ .error e) : Reported trace e := by
  cases h with
  | refused hRefused => exact absurd hRefused hDraft
  | unread _ hLoad => exact LakehouseDef.reported_of_load hLoad hState
  | unpublished _ hLoad hPublish =>
      exact (hPublish.reported hState).mono fun _ hMem => List.mem_append_right _ hMem
  | lost => cases hState

theorem draft_of_isPersisted (h : t.running.isPersisted = true) :
    draft t = .error (.invalidArgument .nothingToCommit) := by
  rw [draft, if_pos h]

/-- What is private and began at a stored root can be drafted, unless there are no versions left. -/
theorem draft_ne_of_state (hRunning : t.running.isPersisted ≠ true)
    (hBeginning : t.beginning.isPersisted = true) (hState : e.IsOfState) : draft t ≠ .error e := by
  obtain ⟨location, hLocation⟩ := Option.isSome_iff_exists.mp hBeginning
  rw [draft, if_neg hRunning, hLocation]
  dsimp only
  split
  · rintro ⟨⟩
    cases hState
  · rintro ⟨⟩

end Lakehouse

end Commit

/-! ### Stores that raise no objections -/

namespace Storage

variable {why : ArgumentFault}

theorem Memory.answer_ne_invalidArgument (c : Call) (m : Memory) :
    (Memory.answer c m).1 ≠ .error (.invalidArgument why) :=
  (System.Serves.performed c).ne_invalidArgument

theorem Tracing.answer_ne_invalidArgument (c : Call) (t : Tracing) :
    (Tracing.answer c t).1 ≠ .error (.invalidArgument why) := by
  rw [answer]
  split
  · rw [refusal]
    split <;> rintro ⟨⟩
  · cases c with
    | list start => rintro ⟨⟩
    | get key => exact Memory.answer_ne_invalidArgument (.get key) t.objects
    | put key blob mode => exact Memory.answer_ne_invalidArgument (.put key blob mode) t.objects
    | delete key => exact Memory.answer_ne_invalidArgument (.delete key) t.objects
    | head key => exact Memory.answer_ne_invalidArgument (.head key) t.objects

theorem Bucket.answer_ne_invalidArgument (c : Call) (b : Bucket) :
    (Bucket.answer c b).1 ≠ .error (.invalidArgument why) := by
  cases c with
  | get path =>
      rw [answer]
      split <;> rintro ⟨⟩
  | put path blob mode =>
      rw [answer]
      split <;> rintro ⟨⟩
  | delete path => rintro ⟨⟩
  | list start => rintro ⟨⟩
  | head path => rintro ⟨⟩

theorem Folder.answer_ne_invalidArgument (c : Call) (f : Folder) :
    (Folder.answer c f).1 ≠ .error (.invalidArgument why) := by
  cases c with
  | get path =>
      rw [answer]
      split <;> rintro ⟨⟩
  | put path blob mode =>
      rw [answer]
      split
      · rintro ⟨⟩
      · split
        · rintro ⟨⟩
        · split
          · rintro ⟨⟩
          · unfold writeFile
            dsimp only
            split <;> rintro ⟨⟩
  | delete path =>
      rw [answer]
      split <;> rintro ⟨⟩
  | list start =>
      rw [answer]
      split <;> rintro ⟨⟩
  | head path =>
      rw [answer]
      split <;> rintro ⟨⟩

theorem Backend.answer_ne_invalidArgument (c : Call) (b : Backend) :
    (b.answer c).1 ≠ .error (.invalidArgument why) := by
  cases b with
  | memory m => exact Memory.answer_ne_invalidArgument c m
  | tracing t => exact Tracing.answer_ne_invalidArgument c t
  | bucket b => exact Bucket.answer_ne_invalidArgument c b
  | folder f => exact Folder.answer_ne_invalidArgument c f

/-- No store objects to what it is asked, rivals and denials included. -/
theorem Contended.answer_ne_invalidArgument (c : Call) (s : Contended) :
    (s.answer c).1 ≠ .error (.invalidArgument why) := by
  have hPass (c : Call) (s : Contended) : (s.pass c).1 ≠ .error (.invalidArgument why) :=
    Backend.answer_ne_invalidArgument c s.backend
  cases c with
  | put key blob mode =>
      rw [answer]
      split
      · rintro ⟨⟩
      · unfold putAfter
        split
        · exact hPass _ _
        · next first hRival =>
          split
          · next e s' hFirst =>
            rintro ⟨⟩
            exact hPass _ _ (congrArg Prod.fst hFirst)
          · exact hPass _ _
  | get key => exact hPass (.get key) s
  | delete key => exact hPass (.delete key) s
  | list start => exact hPass (.list start) s
  | head key => exact hPass (.head key) s

end Storage

/-- Whatever is run on a host, no call to its store is answered with an invalid argument. -/
theorem Host.not_reported {α : Type} {why : ArgumentFault} (p : Program α) (host : Host) :
    ¬ Exchange.Reported (p.exchanges answer host) (.invalidArgument why) := by
  induction p generalizing host with
  | done value =>
      rintro ⟨c, hMem⟩
      cases hMem
  | fail e =>
      rintro ⟨c, hMem⟩
      cases hMem
  | request r next ih =>
      rintro ⟨c, hMem⟩
      rcases List.mem_cons.mp hMem with hHead | hRest
      · obtain ⟨rfl, hAnswer⟩ := Exchange.mk.inj hHead
        exact host.store.answer_ne_invalidArgument c (eq_of_heq hAnswer).symm
      · exact ih _ _ ⟨c, hRest⟩

/-! ### What the changes decide -/

namespace Transaction.Standing

open Lakehouse

variable {start t : Transaction} {count : Nat} {site : Site} {trace : List Exchange}
  {outcome : Except Error Committed}

/-- Without changes a commit asks for nothing. -/
theorem commit_of_unchanged (hPersisted : start.beginning.isPersisted = true)
    (h : Standing start count t) (hNone : count = 0) (hRan : (commit site t).Ran trace outcome) :
    trace = [] ∧ outcome = .error (.invalidArgument .nothingToCommit) := by
  rw [commit, draft_of_isPersisted ((h.isPersisted_iff hPersisted).mpr hNone)] at hRan
  exact hRan.of_fail

/-- After a change a commit blames the state of its transaction only if the store said so. -/
theorem reported_of_changed (hPersisted : start.beginning.isPersisted = true)
    (h : Standing start count t) (hSome : count ≠ 0) {e : Error} (hState : e.IsOfState)
    (hRan : (commit site t).Ran trace (.error e)) : Exchange.Reported trace e := by
  have hRunning : t.running.isPersisted ≠ true := fun hStored =>
    hSome ((h.isPersisted_iff hPersisted).mp hStored)
  have hBeginning : t.beginning.isPersisted = true := by rw [h.beginning, hPersisted]
  exact (ran_commit hRan).reported hState (draft_ne_of_state hRunning hBeginning hState)

/-- Unless the store says so, there is nothing to commit exactly if there are no changes. -/
theorem nothing_to_commit_iff (hPersisted : start.beginning.isPersisted = true)
    (h : Standing start count t) (hRan : (commit site t).Ran trace outcome) :
    (outcome = .error (.invalidArgument .nothingToCommit) ∧
      ¬ Exchange.Reported trace (.invalidArgument .nothingToCommit)) ↔ count = 0 := by
  constructor
  · rintro ⟨rfl, hSilent⟩
    by_contra hSome
    exact hSilent (h.reported_of_changed hPersisted hSome .nothingToCommit hRan)
  · intro hNone
    obtain ⟨rfl, rfl⟩ := h.commit_of_unchanged hPersisted hNone hRan
    refine ⟨rfl, ?_⟩
    rintro ⟨c, hMem⟩
    cases hMem

/-- Only the store can say that the root at which a transaction began is not stored. -/
theorem reported_of_beginningNotPersisted (hPersisted : start.beginning.isPersisted = true)
    (h : Standing start count t) {id : TransactionId}
    (hRan : (commit site t).Ran trace (.error (.invalidArgument (.beginningNotPersisted id)))) :
    Exchange.Reported trace (.invalidArgument (.beginningNotPersisted id)) := by
  by_cases hNone : count = 0
  · cases (h.commit_of_unchanged hPersisted hNone hRan).2
  · exact h.reported_of_changed hPersisted hNone (.beginningNotPersisted id) hRan

end Transaction.Standing

namespace Lakehouse

variable {isolation : IsolationLevel} {start t : Transaction} {past : List Transaction.Attempt}

/-- What a transaction was given when it began never changes, its changes are the attempts that succeeded,
and as long as there are none its root is the stored root it began at, and afterwards a draft without a
place, a time and a history. So a commit finds nothing to commit exactly if no attempt succeeded, whatever
the rows are by then, and it never misses the root at which the transaction began. Nothing is assumed of the
answers to any request; only a store that itself answers a call with one of these two errors could make a
commit end with it for another reason, and no store of a host does. -/
theorem changes_decide_commit (hBegun : Transaction.Begun isolation start)
    (h : Transaction.Comes start past t) :
    (t.id = start.id ∧ t.beganAt = start.beganAt ∧ t.isolation = isolation ∧
      t.beginning = start.beginning ∧ t.beginning.isPersisted = true) ∧
    t.changes = past.countP Transaction.Attempt.succeeded ∧
    (t.running.isPersisted = true ↔ t.changes = 0) ∧
    (t.running = t.beginning ↔ t.changes = 0) ∧
    (t.changes ≠ 0 → t.running.IsDraft t.beginning.lakehouseDefPath) ∧
    (∀ site trace outcome, (commit site t).Ran trace outcome →
      ((outcome = .error (.invalidArgument .nothingToCommit) ∧
          ¬ Exchange.Reported trace (.invalidArgument .nothingToCommit)) ↔
        ∀ a ∈ past, a.succeeded = false) ∧
      ∀ id, outcome = .error (.invalidArgument (.beginningNotPersisted id)) →
        Exchange.Reported trace (.invalidArgument (.beginningNotPersisted id))) ∧
    ∀ site (host : Host),
      ((host.run (commit site t)).1 = .error (.invalidArgument .nothingToCommit) ↔
        ∀ a ∈ past, a.succeeded = false) ∧
      ∀ id, (host.run (commit site t)).1 ≠ .error (.invalidArgument (.beginningNotPersisted id)) := by
  obtain ⟨id, time, root, hRoot, hStart⟩ := hBegun.eq_start
  have hPersisted : start.beginning.isPersisted = true := hStart ▸ hRoot
  have hIsolation : start.isolation = isolation := hStart ▸ rfl
  have hStands := h.stands hBegun
  have hNone : past.countP Transaction.Attempt.succeeded = 0 ↔ ∀ a ∈ past, a.succeeded = false := by
    simp only [List.countP_eq_zero, Bool.not_eq_true]
  refine ⟨⟨hStands.id, hStands.beganAt, hStands.isolation.trans hIsolation, hStands.beginning,
    hStands.beginning ▸ hPersisted⟩, hStands.changes, ?_, ?_, ?_, ?_, ?_⟩
  · rw [hStands.changes]
    exact hStands.isPersisted_iff hPersisted
  · rw [hStands.changes]
    exact hStands.running_eq_iff hPersisted
  · rw [hStands.changes, hStands.beginning]
    exact hStands.drafted
  · intro site trace outcome hRan
    refine ⟨(hStands.nothing_to_commit_iff hPersisted hRan).trans hNone, ?_⟩
    rintro id rfl
    exact hStands.reported_of_beginningNotPersisted hPersisted hRan
  · intro site host
    have hRan := ran_exchanges Host.answer (commit site t) host
    have hSilent (why : ArgumentFault) :
        ¬ Exchange.Reported ((commit site t).exchanges Host.answer host) (.invalidArgument why) :=
      Host.not_reported (commit site t) host
    refine ⟨?_, fun id hBlames => ?_⟩
    · rw [← hNone, ← hStands.nothing_to_commit_iff hPersisted hRan]
      exact ⟨fun hNothing => ⟨hNothing, hSilent .nothingToCommit⟩, And.left⟩
    · rw [show (Program.run Host.answer (commit site t) host).1 = _ from hBlames] at hRan
      exact hSilent _ (hStands.reported_of_beginningNotPersisted hPersisted hRan)

end Lakehouse

/-! ### A session whose changes cancel out -/

namespace Transaction

variable {σ : Type} {answer : (r : Request) → σ → r.Answer × σ}

/-- Asks for changes one after another, each of the transaction that the last one to succeed delivered. -/
def attemptAll (answer : (r : Request) → σ → r.Answer × σ) (site : Site) :
    List Change → Transaction → σ → List Attempt × Transaction × σ
  | [], t, s => ([], t, s)
  | c :: rest, t, s =>
    let (outcome, s) := (c.program site t).run answer s
    let (past, last, s) := attemptAll answer site rest (outcome.toOption.getD t) s
    (⟨c, outcome⟩ :: past, last, s)

theorem comes_attemptAll {site : Site} {start t : Transaction} {past : List Attempt}
    (h : Comes start past t) (changes : List Change) (s : σ) :
    Comes start (past ++ (attemptAll answer site changes t s).1)
      (attemptAll answer site changes t s).2.1 := by
  induction changes generalizing past t s with
  | nil => rwa [attemptAll, List.append_nil]
  | cons c rest ih =>
      have hRan := ran_exchanges answer (c.program site t) s
      rw [attemptAll]
      generalize (c.program site t).run answer s = ended at hRan
      obtain ⟨outcome, s⟩ := ended
      dsimp only
      rw [List.append_cons]
      cases outcome with
      | ok next => exact ih (h.changed hRan) s
      | error e => exact ih (h.failed hRan) s

/-- A transaction that begins when a lakehouse is new. -/
def early : Transaction :=
  .start ⟨0⟩ 7 .serializable
    ((Root.new (DefinitionPath.ofLakehouse ⟨0⟩)).persistedAt (.ofVersion 0) 7)

end Transaction

/-- A host on which a lakehouse was created. -/
def Host.opened : Host := ((Host.start (.memory .empty) 7).run (Lakehouse.create .top .standard)).2

namespace Lakehouse

open Transaction

/-- A namespace that is not there is altered, which fails, and then it is created and dropped. -/
def cancelling : List Change :=
  [.alterNamespace "ns" .blank, .createNamespace "ns" .blank, .dropNamespace "ns"]

/-- What comes of these changes. -/
def cancelled : List Attempt × Transaction × Host :=
  attemptAll Host.answer .top cancelling early Host.opened

/-- After changes that cancel out the rows are those of the root at which the transaction began, and still
there is something to commit. -/
theorem changes_cancelled_commit :
    Begun .serializable early ∧ Comes early cancelled.1 cancelled.2.1 ∧
      cancelled.1.map Attempt.succeeded = [false, true, true] ∧ cancelled.2.1.changes = 2 ∧
      cancelled.2.1.running.rows = early.beginning.rows ∧ cancelled.2.1.running ≠ early.beginning ∧
      ∀ site (host : Host),
        (host.run (commit site cancelled.2.1)).1 ≠ .error (.invalidArgument .nothingToCommit) := by
  have hBegun : Begun .serializable early := by
    have hRan := ran_exchanges Host.answer (Lakehouse.begin .top .serializable) Host.opened
    rw [show ((Lakehouse.begin .top .serializable).run Host.answer Host.opened).1 = .ok early from
      toOption_eq_some.mp (by decide +kernel)] at hRan
    exact .newest hRan
  have hComes : Comes early cancelled.1 cancelled.2.1 := by
    have hAll := @comes_attemptAll Host Host.answer .top early early [] .start cancelling Host.opened
    rw [List.nil_append] at hAll
    rw [cancelled]
    exact hAll
  obtain ⟨hPast, hRows⟩ : cancelled.1.map Attempt.succeeded = [false, true, true] ∧
      cancelled.2.1.running.rows = early.beginning.rows := by decide +kernel
  obtain ⟨⟨-, -, -, hBeginning, -⟩, hChanges, -, hRunning, -, -, hCommit⟩ :=
    changes_decide_commit hBegun hComes
  have hTwo : cancelled.2.1.changes = 2 := by
    rw [hChanges, ← Function.id_comp Attempt.succeeded, ← List.countP_map, hPast]
    rfl
  refine ⟨hBegun, hComes, hPast, hTwo, hRows, ?_, fun site host hNothing => ?_⟩
  · rw [← hBeginning, Ne, hRunning, hTwo]
    decide
  · have hSome : true ∈ cancelled.1.map Attempt.succeeded := by simp [hPast]
    obtain ⟨a, hMem, hTrue⟩ := List.mem_map.mp hSome
    cases ((hCommit site host).1.mp hNothing a hMem).symm.trans hTrue

end Lakehouse

end SnapshotCatalog
