import SnapshotCatalog.Proofs.Calls
import SnapshotCatalog.Proofs.Courses
import SnapshotCatalog.Proofs.Origins
import SnapshotCatalog.Proofs.Schedules
import SnapshotCatalog.Proofs.Timeline
/-!
What a creation or a commit returns is what is stored. The root that is returned was made in memory,
and the root that is read was decoded from an object and given its place. Both agree in every field,
in the state in which the call ended and for ever after.
-/
namespace SnapshotCatalog

open Storage (Memory)
open Program

/-! ### No private root is a rollback -/

/-- A root that was never stored names no rollback. -/
def Root.Onward (r : Root) : Prop := r.isPersisted = false → r.rollbackFromRootPath = none

theorem Root.Onward.rollback_mutableCopy {r : Root} (h : r.Onward) :
    r.mutableCopy.rollbackFromRootPath = none := by
  unfold mutableCopy
  split
  · rfl
  · next hPrivate => exact h (Bool.eq_false_iff.mpr hPrivate)

theorem Mutation.onward_of_applyTo {limits : KeyLimits} {mutation : Mutation} {r next : Root}
    (h : mutation.applyTo limits r = .ok next) (hOnward : r.Onward) : next.Onward := by
  obtain ⟨key, -, rfl⟩ := map_eq_ok.mp h
  intro _
  unfold touch
  split
  · exact hOnward.rollback_mutableCopy
  · exact hOnward.rollback_mutableCopy

/-- Only a private root is drafted. -/
theorem Lakehouse.isPersisted_of_draft {t : Transaction} {drafted : Version × Root}
    (h : draft t = .ok drafted) : t.running.isPersisted = false := by
  rw [draft] at h
  split at h
  · cases h
  · next hPrivate => exact Bool.eq_false_iff.mpr hPrivate

theorem Handle.Sound.rollback_running {site : Site} {m : Memory} {h : Handle} {d : LakehouseDef}
    (hSound : h.Sound site m d) (hBeginning : h.transaction.beginning.isPersisted = true)
    {drafted : Version × Root} (hDraft : Lakehouse.draft h.transaction = .ok drafted) :
    h.transaction.running.rollbackFromRootPath = none := by
  have hOnward : h.transaction.beginning.Onward := by
    intro hPrivate
    rw [hBeginning] at hPrivate
    cases hPrivate
  exact Root.replay_induction (fun _ _ _ => Mutation.onward_of_applyTo) hSound.replayed hOnward
    (Lakehouse.isPersisted_of_draft hDraft)

/-! ### Calls that ended well -/

namespace Event

/-- The event ended a creation of the lakehouse well. -/
def isCreated : Event → Bool
  | .ended _ (.create _) (.ok _) => true
  | _ => false

/-- The event ended a commit well. -/
def isCommitted : Event → Bool
  | .ended _ (.commit _) (.ok _) => true
  | _ => false

theorem exists_of_isCreated {event : Event} (h : event.isCreated = true) :
    ∃ client d reply, event = .ended client (.create d) (.ok reply) := by
  unfold isCreated at h
  split at h
  · exact ⟨_, _, _, rfl⟩
  · cases h

theorem exists_of_isCommitted {event : Event} (h : event.isCommitted = true) :
    ∃ client handle reply, event = .ended client (.commit handle) (.ok reply) := by
  unfold isCommitted at h
  split at h
  · exact ⟨_, _, _, rfl⟩
  · cases h

end Event

/-! ### Returned roots -/

namespace System

/-- The root that a call returned for a version: it is placed and stamped as that version and names
no rollback, and whoever reads the version from now on reads this root. -/
structure Returned (site : Site) (s : System) (v : Version) (r : Root) : Prop where
  location : r.location = some (.ofVersion v)
  stamped : ∃ time, r.createdAt = some time
  rollback : r.rollbackFromRootPath = none
  read : ∀ store, s.Unfolds site store → (Chain.readRoot site v).AlwaysEnds store (.ok r)

/-- A successful creation returned version 0: no root comes before it, and it has no rows. -/
structure ReturnedByCreate (site : Site) (s : System) (reply : Reply) (r : Root) : Prop where
  reply : reply = .root r
  returned : s.Returned site 0 r
  previous : r.previousRootPath = none
  rows : r.rows = .empty
  definition : ∃ id, r.lakehouseDefPath = DefinitionPath.ofLakehouse id

/-- A successful commit returned the version after the one at which its transaction began, with that
one before it and with the rows and the definition that the transaction had. -/
structure ReturnedByCommit (site : Site) (s : System) (t : Transaction) (reply : Reply)
    (before : Version) (r : Root) : Prop where
  reply : reply = .committed ⟨t.id, r⟩
  began : t.beginning.location = some (.ofVersion before)
  next : (before + 1).toNat = before.toNat + 1
  returned : s.Returned site (before + 1) r
  previous : r.previousRootPath = some (RootPath.ofVersion before)
  rows : r.rows = t.running.rows
  definition : r.lakehouseDefPath = t.running.lakehouseDefPath

variable {site : Site} {s : System} {published : List Publication} {v : Version} {r : Root}

/-- A root that is fit to be the root of its version, and whose object is stored there, is read from
there for ever. -/
theorem Sound.returned (hSound : s.Sound site published) {path : String} (hVersion : r.IsVersion path v)
    (hGet : s.store.get? (site.resolve (RootPath.ofVersion v)) = some r.blob)
    (hRollback : r.rollbackFromRootPath = none) : s.Returned site v r := by
  obtain ⟨p, first, hp, -, hBlob, hPublished⟩ := hSound.records.get?_root hGet
  -- Both roots are what the same object reads back as.
  have hSame : p.root = r := by
    have hRead := hPublished.parseRoot_blob
    rw [← hBlob, hVersion.parseRoot_blob] at hRead
    exact (Except.ok.inj hRead).symm
  refine ⟨hVersion.location, hVersion.stamped, hRollback, fun store hUnfolds => ?_⟩
  have hFinds := hSound.records.finds_readRoot hp
  rw [hSame] at hFinds
  exact .of_finds (hSound.unfolds hUnfolds).1 (hUnfolds.store_zero ▸ hFinds)

/-- The creation of a root that published it is among the events of the log, so its object is
stored. -/
theorem Reachable.get?_of_published (hReach : Reachable site s) {call : EndedCall}
    (hCall : call ∈ s.calls) {time : Millis} {before : List Exchange}
    {answer : Except Error Storage.WriteOutcome}
    (hPublished : Lakehouse.Published site v r time before answer call.exchanges) :
    s.store.get? (site.resolve (RootPath.ofVersion v)) =
      some (r.persistedAt (.ofVersion v) time).blob := by
  have hIn := (hReach.followed.calls call hCall).2 _ hPublished.mem_creation
  exact hReach.kept _ _ _ _ (site.resolve_ne_hint (RootPath.ofVersion_ne_hint v)) hIn

/-- A call in the log with its run. -/
theorem Reachable.exists_call (hReach : Reachable site s) {client : Nat} {op : Operation Handle}
    {outcome : Except Error Reply} (hEnded : .ended client op outcome ∈ s.log) :
    ∃ call ∈ s.calls, call.operation = op ∧
      ((op.map Handle.transaction).program site).Ran call.exchanges outcome := by
  obtain ⟨call, hCall, -, rfl, rfl⟩ := (mem_ended_iff [] s.log).mp hEnded
  exact ⟨call, hCall, rfl, (hReach.followed.calls call hCall).1⟩

theorem Reachable.returnedByCreate (hReach : Reachable site s) {client : Nat} {d : LakehouseDef}
    {reply : Reply} (hEnded : .ended client (.create d) (.ok reply) ∈ s.log) :
    ∃ r, s.ReturnedByCreate site reply r := by
  obtain ⟨published, hSound⟩ := hReach.sound
  obtain ⟨call, hCall, -, hRan⟩ := hReach.exists_call hEnded
  obtain ⟨result, hCreate, hReply⟩ := hRan.of_replying
  cases result with
  | error e => cases hReply
  | ok r =>
      cases hReply
      obtain ⟨id, time, before, answer, hPublished, hSize, rfl⟩ :=
        (Lakehouse.ran_create hCreate).of_ok
      have hVersion : ((Root.new (DefinitionPath.ofLakehouse id)).persistedAt (.ofVersion 0)
          time).IsVersion (DefinitionPath.ofLakehouse id) 0 :=
        ⟨rfl, ⟨time, rfl⟩, rfl, rfl, nofun, nofun, Nat.two_pow_pos 64⟩
      exact ⟨_, rfl, hSound.returned hVersion (hReach.get?_of_published hCall hPublished) rfl, rfl,
        rfl, id, rfl⟩

theorem Reachable.returnedByCommit (hReach : Reachable site s) {client : Nat} {h : Handle}
    {reply : Reply} (hEnded : .ended client (.commit h) (.ok reply) ∈ s.log) :
    ∃ before r, s.ReturnedByCommit site h.transaction reply before r := by
  obtain ⟨published, hSound⟩ := hReach.sound
  obtain ⟨call, hCall, -, hRan⟩ := hReach.exists_call hEnded
  obtain ⟨result, hCommit, hReply⟩ := hRan.of_replying
  cases result with
  | error e => cases hReply
  | ok c =>
      cases hReply
      obtain ⟨version, draft, d, time, earlier, answer, hDraft, hPublished, -, hSize, rfl⟩ :=
        (Lakehouse.ran_commit hCommit).of_ok
      have hKnown := hSound.handles h (hReach.attributed.log _ hEnded h rfl)
      obtain ⟨path, before, hBefore⟩ := hKnown.isVersion hSound.records
      obtain ⟨-, d', hHandle⟩ := hKnown
      obtain ⟨hMore, rfl, hVersion⟩ := hHandle.isVersion_draft hBefore hDraft
        (Lakehouse.rows_size_lt_of_checkSize hSize) time
      have hRollback := hHandle.rollback_running
        (by rw [Root.isPersisted, hBefore.location]; rfl) hDraft
      obtain ⟨location, hLocation, -, -, rfl⟩ := Lakehouse.draft_eq_ok hDraft
      cases hBefore.eq_of_location hLocation
      exact ⟨before, _, rfl, hLocation, UInt64.toNat_add_one hMore,
        hSound.returned hVersion (hReach.get?_of_published hCall hPublished) hRollback, rfl, rfl, rfl⟩

/-- The root that a successful creation or a successful commit returned is the root that is read from
its version, in every field, in every state after the call and whatever else happens. -/
theorem Reachable.returned_roots_stored (hReach : Reachable site s) :
    (∀ client d reply, .ended client (.create d) (.ok reply) ∈ s.log →
      ∃ r, s.ReturnedByCreate site reply r) ∧
    ∀ client h reply, .ended client (.commit h) (.ok reply) ∈ s.log →
      ∃ before r, s.ReturnedByCommit site h.transaction reply before r :=
  ⟨fun _ _ _ => hReach.returnedByCreate, fun _ _ _ => hReach.returnedByCommit⟩

/-- After the race, what the winner of the creation and the commit were told is what is stored. -/
theorem returned_afterRace :
    (∃ client d reply r, .ended client (.create d) (.ok reply) ∈ afterRace.log ∧
      afterRace.ReturnedByCreate .top reply r) ∧
    ∃ client h reply before r, .ended client (.commit h) (.ok reply) ∈ afterRace.log ∧
      afterRace.ReturnedByCommit .top h.transaction reply before r := by
  have hEnds : afterRace.log.any Event.isCreated = true ∧
      afterRace.log.any Event.isCommitted = true := by
    decide +kernel
  obtain ⟨hCreates, hCommits⟩ := reachable_afterRace.returned_roots_stored
  obtain ⟨_, hCreated, hCreate⟩ := List.any_eq_true.mp hEnds.1
  obtain ⟨_, hCommitted, hCommit⟩ := List.any_eq_true.mp hEnds.2
  obtain ⟨client, d, reply, rfl⟩ := Event.exists_of_isCreated hCreate
  obtain ⟨other, h, answer, rfl⟩ := Event.exists_of_isCommitted hCommit
  obtain ⟨r, hReturned⟩ := hCreates client d reply hCreated
  obtain ⟨before, last, hLast⟩ := hCommits other h answer hCommitted
  exact ⟨⟨client, d, reply, r, hCreated, hReturned⟩, other, h, answer, before, last, hCommitted, hLast⟩

end System

end SnapshotCatalog
