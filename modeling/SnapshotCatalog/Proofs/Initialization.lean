import SnapshotCatalog.Proofs.Atomicity
import SnapshotCatalog.Proofs.Freshness
import SnapshotCatalog.Proofs.NamePaths
import SnapshotCatalog.Proofs.Schedules
import SnapshotCatalog.Proofs.Snapshots
/-!
The race to create a lakehouse. Everyone who takes part stores a definition of their own before one
write decides, so a loser leaves a definition behind that nobody will ever read: version 0 names the
definition of the winner, and every root that comes after it, in the store or in a transaction, goes
back to version 0.
-/
namespace SnapshotCatalog

open Storage (Memory)
open Program Exchange

variable {site : Site} {trace : List Exchange} {d : LakehouseDef}

/-- An object was created at a key. -/
def Creates (key : String) (trace : List Exchange) : Prop :=
  ∃ blob, ⟨.call (.put key blob .createNew), .ok .written⟩ ∈ trace

theorem Creates.append {key : String} {before after : List Exchange} :
    Creates key (before ++ after) ↔ Creates key before ∨ Creates key after := by
  simp only [Creates, List.mem_append, exists_or]

theorem Creates.mem_alterations {key : String} (h : Creates key trace) :
    ∃ blob, ⟨key, some blob⟩ ∈ alterations trace := by
  obtain ⟨blob, hMem⟩ := h
  exact ⟨blob, List.mem_filterMap.mpr ⟨_, hMem, rfl⟩⟩

/-- Exchanges that change nothing create nothing. -/
theorem not_creates {key : String} (hNone : alterations trace = []) : ¬ Creates key trace := by
  intro hCreates
  obtain ⟨blob, hMem⟩ := hCreates.mem_alterations
  rw [hNone] at hMem
  cases hMem

/-- Nothing stood in the way of a creation of the lakehouse: its definition is valid, the root that
it was about to write is not too large, and no call failed. -/
structure Unhindered (site : Site) (d : LakehouseDef) (trace : List Exchange) : Prop where
  valid : d.validate = .ok ()
  small : ∀ id time, drew id ∈ trace → ⟨.clock, time⟩ ∈ trace →
    Lakehouse.checkSize (Node.encode (.new (DefinitionPath.ofLakehouse id)) time) d = .ok ()
  calm : ∀ c e, ⟨.call c, .error e⟩ ∉ trace

namespace Lakehouse

/-- All that exchanges changed are definitions of lakehouses. -/
def OnlyDefines (site : Site) (trace : List Exchange) : Prop :=
  ∀ change ∈ alterations trace, ∃ id, change.key = site.resolve (DefinitionPath.ofLakehouse id)

theorem OnlyDefines.of_unaltered (hNone : alterations trace = []) : OnlyDefines site trace := by
  rw [OnlyDefines, hNone]
  exact fun _ hMem => nomatch hMem

theorem OnlyDefines.not_creates (h : OnlyDefines site trace) (v : Version) :
    ¬ Creates (site.resolve (RootPath.ofVersion v)) trace := by
  intro hCreates
  obtain ⟨blob, hMem⟩ := hCreates.mem_alterations
  obtain ⟨id, hSame⟩ := h _ hMem
  exact (DefinitionPath.bears_ofLakehouse id).ne_root v (site.resolve_injective hSame).symm

theorem alterations_probe {probe : List Exchange} {found : Except Error Bool}
    (hProbe : (Chain.hasRoot site 0).Ran probe found) : alterations probe = [] := by
  obtain ⟨answer, rfl, -⟩ := Chain.ran_hasRoot hProbe
  exact alterations_of_quiet fun x hMem => List.mem_singleton.mp hMem ▸ rfl

/-- A creation that stored its definition and then published nothing has changed nothing else. -/
theorem onlyDefines_of_unpublished {probe write publish : List Exchange} {id : Uuid}
    {result : Except Error (Option Root)} (hProbe : (Chain.hasRoot site 0).Ran probe (.ok false))
    (hWrite : (Definition.store site (DefinitionPath.ofLakehouse id) d).Ran write (.ok ()))
    (hPublish : PublishCourse site 0 d (.new (DefinitionPath.ofLakehouse id)) publish result)
    (hNone : ∀ root, result ≠ .ok (some root)) :
    OnlyDefines site (probe ++ ⟨.freshUuid, id⟩ :: (write ++ publish)) := by
  obtain rfl := Definition.eq_of_ran_store hWrite
  rw [OnlyDefines, alterations_append, alterations_probe hProbe, alterations_cons, alterations_append,
    (hPublish.of_not_some hNone).1]
  exact fun change hMem => ⟨id, by rw [List.mem_singleton.mp hMem]⟩

/-- A creation that fails has changed nothing but the definition that it stored. -/
theorem CreateCourse.of_error {e : Error} (h : CreateCourse site d trace (.error e)) :
    OnlyDefines site trace := by
  cases h with
  | invalid hInvalid => exact .of_unaltered rfl
  | unprobed hProbe => exact .of_unaltered (alterations_probe hProbe)
  | late hProbe => exact .of_unaltered (alterations_probe hProbe)
  | undefined hProbe hWrite =>
      refine .of_unaltered ?_
      rw [alterations_append, alterations_probe hProbe, alterations_cons,
        Definition.alterations_of_ran_store hWrite]
      rfl
  | unpublished hProbe hWrite hPublish => exact onlyDefines_of_unpublished hProbe hWrite hPublish nofun
  | lost hProbe hWrite hPublish => exact onlyDefines_of_unpublished hProbe hWrite hPublish nofun

/-- A creation succeeds exactly if it created version 0. -/
theorem CreateCourse.ok_iff {outcome : Except Error Root} (h : CreateCourse site d trace outcome) :
    (∃ root, outcome = .ok root) ↔ Creates (site.resolve (RootPath.ofVersion 0)) trace := by
  cases outcome with
  | ok root =>
      obtain ⟨_, _, _, _, hPublished, -⟩ := h.of_ok
      exact iff_of_true ⟨root, rfl⟩ ⟨_, hPublished.mem_creation⟩
  | error e => exact iff_of_false (fun ⟨_, hNever⟩ => nomatch hNever) (h.of_error.not_creates 0)

/-- The first definition that is stored, under an identifier that was just drawn, finds nothing in its
place. -/
theorem store_of_unspoilt {probe write : List Exchange} {id : Uuid} {outcome : Except Error Unit}
    (hProbe : (Chain.hasRoot site 0).Ran probe (.ok false))
    (hWrite : (Definition.store site (DefinitionPath.ofLakehouse id) d).Ran write outcome)
    (hUnspoilt : Unspoilt site (probe ++ ⟨.freshUuid, id⟩ :: write))
    (hCalm : ∀ c e, ⟨.call c, .error e⟩ ∉ write) : outcome = .ok () := by
  rcases Definition.ran_store hWrite with ⟨-, _, hKey, -⟩ | ⟨answer, rfl, rfl⟩
  · rw [Site.key, DefinitionPath.check_ofLakehouse] at hKey
    cases hKey
  · cases answer with
    | error e => exact absurd (List.mem_singleton_self _) (hCalm _ e)
    | ok found =>
        cases found with
        | written => rfl
        | alreadyExists =>
            have hUnaltered : alterations (probe ++ [drew id]) = [] := by
              rw [alterations_append, alterations_probe hProbe]
              rfl
            refine absurd ?_ (hUnspoilt _ [] id _ (.bytes (Definition.encode d))
              (List.mem_append_right probe (List.mem_singleton_self _))
              (DefinitionPath.bears_ofLakehouse id) hUnaltered)
            rw [List.append_assoc]
            rfl

/-- A creation that did not create version 0, and that nothing else stood in the way of, is told that
the lakehouse is there. -/
theorem CreateCourse.eq_of_unhindered {outcome : Except Error Root}
    (h : CreateCourse site d trace outcome)
    (hLost : ¬ Creates (site.resolve (RootPath.ofVersion 0)) trace) (hUnhindered : Unhindered site d trace)
    (hUnspoilt : Unspoilt site trace) : outcome = .error (.objectAlreadyExists .initialized) := by
  cases h with
  | invalid hInvalid =>
      rw [hUnhindered.valid] at hInvalid
      cases hInvalid
  | @unprobed probe e hProbe =>
      obtain ⟨answer, rfl, hAnswer⟩ := Chain.ran_hasRoot hProbe
      cases answer with
      | ok found => cases hAnswer
      | error e => exact absurd (List.mem_singleton_self _) (hUnhindered.calm _ e)
  | late hProbe => rfl
  | @undefined probe write id e hProbe hWrite =>
      have hStored := store_of_unspoilt hProbe hWrite hUnspoilt fun c e hMem =>
        hUnhindered.calm c e (List.mem_append_right _ (List.mem_cons_of_mem _ hMem))
      cases hStored
  | @unpublished probe write publish id e hProbe hWrite hPublish =>
      have hPublished {x : Exchange} (hMem : x ∈ publish) :
          x ∈ probe ++ ⟨.freshUuid, id⟩ :: (write ++ publish) :=
        List.mem_append_right _ (List.mem_cons_of_mem _ (List.mem_append_right _ hMem))
      have hDrew : drew id ∈ probe ++ ⟨.freshUuid, id⟩ :: (write ++ publish) :=
        List.mem_append_right _ (List.mem_cons_self ..)
      cases hPublish with
      | large hSize =>
          rw [hUnhindered.small id _ hDrew (hPublished (List.mem_cons_self ..))] at hSize
          cases hSize
      | failed hSize =>
          have hFailed := hPublished (List.mem_cons_of_mem _ (List.mem_singleton_self _))
          exact absurd hFailed (hUnhindered.calm _ e)
  | lost hProbe hWrite hPublish => rfl
  | won hProbe hWrite hPublish =>
      exact absurd ((CreateCourse.won hProbe hWrite hPublish).ok_iff.mp ⟨_, rfl⟩) hLost

end Lakehouse

namespace System

variable {s s' : System} {published : List Publication} {key : String}

/-! ### One operation creates an object -/

/-- At most one operation, ended or under way, has created an object at a key. -/
structure Sole (key : String) (s : System) : Prop where
  calls : s.calls.Pairwise fun first second =>
    ¬ (Creates key first.exchanges ∧ Creates key second.exchanges)
  apart : ∀ call ∈ s.calls, Creates key call.exchanges →
    ∀ client, ¬ Creates key (exchanged client s.log)
  clients : ∀ client other, Creates key (exchanged client s.log) →
    Creates key (exchanged other s.log) → client = other

theorem Reachable.contains_of_in (hReach : Reachable site s) (hKey : key ≠ site.resolve Hint.path)
    {client : Nat} {op : Operation Handle} (hIn : ∀ x ∈ trace, x.In s.log client op)
    (hCreates : Creates key trace) : s.store.contains key = true := by
  obtain ⟨blob, hMem⟩ := hCreates
  rw [TextMap.contains, hReach.kept client op key blob hKey (hIn _ hMem)]
  rfl

/-- What an operation under way has created is there. -/
theorem Reachable.contains_of_underway (hReach : Reachable site s)
    (hKey : key ≠ site.resolve Hint.path) {client : Nat}
    (hCreates : Creates key (exchanged client s.log)) : s.store.contains key = true := by
  have hUnderway := hReach.followed.clients client
  cases hRun : s.runs client with
  | none =>
      rw [hRun] at hUnderway
      rw [show exchanged client s.log = [] from hUnderway] at hCreates
      exact absurd hCreates (not_creates rfl)
  | some run =>
      rw [hRun] at hUnderway
      exact hReach.contains_of_in hKey hUnderway.2 hCreates

/-- What a call has created is there. -/
theorem Reachable.contains_of_call (hReach : Reachable site s) (hKey : key ≠ site.resolve Hint.path)
    {call : EndedCall} (hMem : call ∈ s.calls) (hCreates : Creates key call.exchanges) :
    s.store.contains key = true :=
  hReach.contains_of_in hKey (hReach.followed.calls call hMem).2 hCreates

theorem Sole.finish (h : s.Sole key) {client : Nat} {run : Run} {outcome : Except Error Reply} :
    Sole key { s.withRun client none with
      handles := s.handles ++ run.handout outcome,
      log := s.log ++ [.ended client run.operation outcome] } := by
  -- Whoever has created something is another client.
  have hOther {other : Nat}
      (hCreates : Creates key (exchanged other (s.log ++ [.ended client run.operation outcome]))) :
      other ≠ client ∧ Creates key (exchanged other s.log) := by
    rw [exchanged_ended] at hCreates
    split at hCreates
    · exact absurd hCreates (not_creates rfl)
    · next hOther => exact ⟨hOther, hCreates⟩
  refine ⟨?_, fun call hMem hCreates other hAlso => ?_, fun first second hFirst hSecond =>
    h.clients first second (hOther hFirst).2 (hOther hSecond).2⟩
  · rw [calls_ended]
    refine List.pairwise_append.mpr ⟨h.calls, List.pairwise_singleton _ _, fun call hMem new hNew => ?_⟩
    cases List.mem_singleton.mp hNew
    exact fun hBoth => h.apart call hMem hBoth.1 client hBoth.2
  · obtain ⟨hApart, hAlso⟩ := hOther hAlso
    rw [calls_ended] at hMem
    rcases List.mem_append.mp hMem with hOld | hNew
    · exact h.apart call hOld hCreates other hAlso
    · cases List.mem_singleton.mp hNew
      exact hApart (h.clients other client hAlso hCreates)

/-- A creation that wrote found nothing, so nobody else had created the object. -/
theorem Sole.answer (h : s.Sole key) (hReach : Reachable site s) (hKey : key ≠ site.resolve Hint.path)
    {client : Nat} {op : Operation Handle} {drawn : Option Uuid} {r : Request}
    {next : r.Answer → Program Reply} {a : r.Answer} {store : Memory}
    (hServes : Serves s.store r a store) :
    Sole key { s.withRun client (some ⟨op, Run.drawnAfter drawn r a, next a⟩) with
      store, log := s.log ++ [.answered client op r a] } := by
  have hExtended {other : Nat}
      (hCreates : Creates key (exchanged other (s.log ++ [.answered client op r a]))) :
      Creates key (exchanged other s.log) ∨ other = client ∧ Creates key [⟨r, a⟩] := by
    rw [exchanged_answered] at hCreates
    split at hCreates
    · next hSame =>
      rw [hSame]
      exact (Creates.append.mp hCreates).imp_right fun hNew => ⟨rfl, hNew⟩
    · exact .inl hCreates
  have hAbsent (hNew : Creates key [⟨r, a⟩]) : s.store.contains key = false := by
    obtain ⟨blob, hMem⟩ := hNew
    cases List.mem_singleton.mp hMem
    exact hServes.contains_of_created
  have hFirst (hNew : Creates key [⟨r, a⟩]) : s.store.contains key ≠ true := by
    rw [hAbsent hNew]
    exact Bool.false_ne_true
  refine ⟨?_, fun call hMem hCreates other hAlso => ?_, fun first second hFirst' hSecond => ?_⟩
  · rw [calls_answered]
    exact h.calls
  · rw [calls_answered] at hMem
    rcases hExtended hAlso with hOld | ⟨-, hNew⟩
    · exact h.apart call hMem hCreates other hOld
    · exact hFirst hNew (hReach.contains_of_call hKey hMem hCreates)
  · rcases hExtended hFirst' with hOld | ⟨rfl, hNew⟩
    · rcases hExtended hSecond with hAlso | ⟨-, hNew⟩
      · exact h.clients first second hOld hAlso
      · exact absurd (hReach.contains_of_underway hKey hOld) (hFirst hNew)
    · rcases hExtended hSecond with hAlso | ⟨rfl, -⟩
      · exact absurd (hReach.contains_of_underway hKey hAlso) (hFirst hNew)
      · rfl

/-- In every state that clients can bring about, an object other than the hint was created once. -/
theorem Reachable.sole (hReach : Reachable site s) (hKey : key ≠ site.resolve Hint.path) :
    s.Sole key := by
  induction hReach with
  | refl => exact ⟨.nil, fun _ hMem => (nomatch hMem), fun _ _ h => absurd h (not_creates rfl)⟩
  | tail hBefore hStep ih =>
      cases hStep with
      | start hIdle hKnown hFits => exact ⟨ih.calls, ih.apart, ih.clients⟩
      | finish hRun hOutcome => exact ih.finish
      | answer hRun hServes => exact ih.answer hBefore hKey hServes

/-! ### Agreement -/

/-- The exchanges so far of a creation of the lakehouse, which may have ended or not. -/
inductive Attempt (s : System) (d : LakehouseDef) : List Exchange → Prop
  | ended {call : EndedCall} (hMem : call ∈ s.calls) (hCreate : call.operation = .create d) :
      Attempt s d call.exchanges
  | underway {client : Nat} {run : Run} (hRun : s.runs client = some run)
      (hCreate : run.operation = .create d) : Attempt s d (exchanged client s.log)

/-- Whoever asks for the definition of the lakehouse gets this one, through a transaction that was
handed out or through one that begins anew at any version, whatever clients do meanwhile. -/
structure Describes (site : Site) (s : System) (d : LakehouseDef) : Prop where
  through : ∀ h ∈ s.handles, ∀ store, s.Unfolds site store →
    (Query.describeLakehouse.program site h.transaction).AlwaysEnds store (.ok (.lakehouse d))
  anew : ∀ v : Version, s.store.contains (site.resolve (RootPath.ofVersion v)) = true →
    ∀ isolation store, s.Unfolds site store →
      ((Lakehouse.beginAtVersion site v isolation).bind fun t =>
        Query.describeLakehouse.program site t).AlwaysEnds store (.ok (.lakehouse d))

/-- What all who race to create the lakehouse can rely on. -/
structure Agreed (site : Site) (s : System) : Prop where
  /-- Version 0 is the only root that creations publish. -/
  first : ∀ i v d, (s.published site)[i]? = some (v, .create d) → i = 0 ∧ v = 0
  /-- One of them writes it, whether or not the others have ended. -/
  sole : s.Sole (site.resolve (RootPath.ofVersion 0))
  /-- The one that writes it is the one that the log shows. -/
  won : ∀ d trace, s.Attempt d trace → Creates (site.resolve (RootPath.ofVersion 0)) trace →
    (s.published site)[0]? = some (0, .create d)
  /-- It succeeds, and no other does. -/
  decided : ∀ call ∈ s.calls, ∀ d, call.operation = .create d →
    ((∃ reply, call.outcome = .ok reply) ↔
      Creates (site.resolve (RootPath.ofVersion 0)) call.exchanges)
  /-- All others change no root and not the hint. -/
  lost : ∀ d trace, s.Attempt d trace → ¬ Creates (site.resolve (RootPath.ofVersion 0)) trace →
    ∀ change ∈ alterations trace, change.key ≠ site.resolve Hint.path ∧
      ∀ v, change.key ≠ site.resolve (RootPath.ofVersion v)
  /-- They are told that the lakehouse is there, if nothing else stood in their way. -/
  refused : (drawnIn s.log).Nodup → ∀ call ∈ s.calls, ∀ d, call.operation = .create d →
    ¬ Creates (site.resolve (RootPath.ofVersion 0)) call.exchanges →
    Unhindered site d call.exchanges → call.outcome = .error (.objectAlreadyExists .initialized)
  /-- The definition of the winner is the definition of the lakehouse, now and later. -/
  described : ∀ d, (s.published site)[0]? = some (0, .create d) →
    ∀ s', Steps site s s' → s'.Describes site d

/-- The course of a creation, as far as it went and in some way to its end. -/
theorem Reachable.course_of_attempt (hReach : Reachable site s) (h : s.Attempt d trace) :
    ∃ more outcome, Lakehouse.CreateCourse site d (trace ++ more) outcome ∧
      alterations more = [] := by
  have hCourse {trace : List Exchange} {outcome : Except Error Reply} {op : Operation Handle}
      (hCreate : op = .create d) (hRan : ((op.map Handle.transaction).program site).Ran trace outcome) :
      ∃ result, Lakehouse.CreateCourse site d trace result := by
    subst hCreate
    obtain ⟨result, hCreate, -⟩ := hRan.of_replying
    exact ⟨result, Lakehouse.ran_create hCreate⟩
  cases h with
  | @ended call hMem hCreate =>
      obtain ⟨result, hCourse⟩ := hCourse hCreate (hReach.followed.calls call hMem).1
      exact ⟨[], result, (List.append_nil call.exchanges).symm ▸ hCourse, rfl⟩
  | @underway client run hRun hCreate =>
      have hUnderway := hReach.followed.clients client
      rw [hRun] at hUnderway
      obtain ⟨more, outcome, hRest, hNone⟩ := run.rest.exists_ran_unaltered
      obtain ⟨result, hCourse⟩ := hCourse hCreate (hUnderway.1.ran hRest)
      exact ⟨more, result, hCourse, hNone⟩

/-- What a creation has exchanged is in the log. -/
theorem Reachable.in_of_attempt (hReach : Reachable site s) (h : s.Attempt d trace) :
    ∃ client, ∀ x ∈ trace, x.In s.log client (.create d) := by
  cases h with
  | @ended call hMem hCreate =>
      exact ⟨call.client, hCreate ▸ (hReach.followed.calls call hMem).2⟩
  | @underway client run hRun hCreate =>
      have hUnderway := hReach.followed.clients client
      rw [hRun] at hUnderway
      exact ⟨client, hCreate ▸ hUnderway.2⟩

/-- Only version 0 is published by a creation. -/
theorem Sound.first_of_create (hSound : s.Sound site published) {i : Nat} {v : Version}
    (h : (s.published site)[i]? = some (v, .create d)) : i = 0 ∧ v = 0 := by
  rw [hSound.log, getElem?_numbered] at h
  obtain ⟨q, hq, hSame⟩ := Option.map_eq_some_iff.mp h
  obtain ⟨rfl, hAuthor⟩ := Prod.mk.inj hSame
  cases i with
  | zero => exact ⟨rfl, rfl⟩
  | succ i =>
      have hLength := (List.getElem?_eq_some_iff.mp hq).1
      have hBefore : published[i]? = some published[i] := List.getElem?_eq_getElem (by omega)
      obtain ⟨_, h, _, _, _, hCommit, -⟩ := hSound.records.next i _ _ hBefore hq
      cases hCommit.symm.trans hAuthor

/-- A creation that wrote version 0 is the one that the log shows. -/
theorem Reachable.won_of_creates (hReach : Reachable site s) (h : s.Attempt d trace)
    (hCreates : Creates (site.resolve (RootPath.ofVersion 0)) trace) :
    (s.published site)[0]? = some (0, .create d) := by
  obtain ⟨published, hSound⟩ := hReach.sound
  obtain ⟨client, hIn⟩ := hReach.in_of_attempt h
  obtain ⟨blob, hMem⟩ := hCreates
  have hEntry : (0, .create d) ∈ s.published site := by
    refine List.mem_filterMap.mpr ⟨_, hIn _ hMem, ?_⟩
    show (site.versionAt? _).map _ = _
    rw [site.versionAt?_resolve, RootPath.version?_ofVersion]
    rfl
  obtain ⟨i, hi⟩ := List.getElem?_of_mem hEntry
  obtain ⟨rfl, -⟩ := hSound.first_of_create hi
  exact hi

/-- A creation that did not write version 0 changed at most the definition that it stored. -/
theorem Reachable.onlyDefines_of_lost (hReach : Reachable site s) (h : s.Attempt d trace)
    (hLost : ¬ Creates (site.resolve (RootPath.ofVersion 0)) trace) :
    Lakehouse.OnlyDefines site trace := by
  obtain ⟨more, outcome, hCourse, hNone⟩ := hReach.course_of_attempt h
  cases outcome with
  | ok root =>
      have hCreates := hCourse.ok_iff.mp ⟨root, rfl⟩
      exact ((Creates.append.mp hCreates).elim hLost (not_creates hNone)).elim
  | error e =>
      have hChanges := hCourse.of_error
      rwa [Lakehouse.OnlyDefines, alterations_append, hNone, List.append_nil] at hChanges

/-- A creation succeeds exactly if it wrote version 0. -/
theorem Reachable.ok_iff_creates (hReach : Reachable site s) {call : EndedCall} (hMem : call ∈ s.calls)
    (hCreate : call.operation = .create d) : (∃ reply, call.outcome = .ok reply) ↔
      Creates (site.resolve (RootPath.ofVersion 0)) call.exchanges := by
  have hRan := (hReach.followed.calls call hMem).1
  rw [hCreate] at hRan
  obtain ⟨result, hRan, hOutcome⟩ := hRan.of_replying
  rw [← (Lakehouse.ran_create hRan).ok_iff, hOutcome]
  cases result with
  | ok root => exact iff_of_true ⟨_, rfl⟩ ⟨_, rfl⟩
  | error e => exact iff_of_false (fun ⟨_, hNever⟩ => nomatch hNever) fun ⟨_, hNever⟩ => nomatch hNever

/-- A creation that lost, and that nothing else stood in the way of, was told that the lakehouse is
there. -/
theorem Reachable.refused_of_lost (hReach : Reachable site s) (hDistinct : (drawnIn s.log).Nodup)
    {call : EndedCall} (hMem : call ∈ s.calls) (hCreate : call.operation = .create d)
    (hLost : ¬ Creates (site.resolve (RootPath.ofVersion 0)) call.exchanges)
    (hUnhindered : Unhindered site d call.exchanges) :
    call.outcome = .error (.objectAlreadyExists .initialized) := by
  have hRan := (hReach.followed.calls call hMem).1
  rw [hCreate] at hRan
  obtain ⟨result, hRan, hOutcome⟩ := hRan.of_replying
  rw [hOutcome, (Lakehouse.ran_create hRan).eq_of_unhindered hLost hUnhindered
    ((hReach.fresh hDistinct).calls call hMem)]
  rfl

/-- The creation that published version 0 stays the one that did. -/
theorem Reachable.first_of_steps (hReach : Reachable site s) (hSteps : Steps site s s') {entry}
    (h : (s.published site)[0]? = some entry) : (s'.published site)[0]? = some entry := by
  obtain ⟨published, hSound⟩ := hReach.sound
  obtain ⟨-, more, hLater⟩ := hSound.steps hSteps
  rw [hSound.log, getElem?_numbered] at h
  obtain ⟨p, hp, rfl⟩ := Option.map_eq_some_iff.mp h
  have hLength := (List.getElem?_eq_some_iff.mp hp).1
  rw [hLater.log, getElem?_numbered, List.getElem?_append_left hLength, hp]
  rfl

/-- Every root in use goes back to the creation that published version 0, and so to its definition. -/
theorem Reachable.describes (hReach : Reachable site s)
    (hFirst : (s.published site)[0]? = some (0, .create d)) : s.Describes site d := by
  have hEnds {r : Root} (hUses : s.Uses site r) {store : Nat → Memory} (hUnfolds : s.Unfolds site store)
      {t : Transaction} (hRunning : t.running = r) :
      (Query.describeLakehouse.program site t).AlwaysEnds store (.ok (.lakehouse d)) := by
    obtain ⟨other, past, hOrigin⟩ := hReach.origin hUses
    have hSame := hFirst.symm.trans hOrigin.created
    obtain rfl := Operation.create.inj (Prod.mk.inj (Option.some.inj hSame)).2
    exact hReach.query_alwaysEnds hUnfolds hOrigin hRunning .describeLakehouse
  refine ⟨fun h hMem store hUnfolds => hEnds (.running hMem) hUnfolds rfl,
    fun v hStored isolation store hUnfolds => ?_⟩
  obtain ⟨r, hRoot⟩ := hReach.exists_rootAt? hStored
  have hBegun : ((Lakehouse.beginAt r isolation).bind fun t =>
      Query.describeLakehouse.program site t).AlwaysEnds store (.ok (.lakehouse d)) :=
    .beginAt_bind fun id time => hEnds (.committed hRoot) hUnfolds rfl
  rw [Lakehouse.beginAtVersion, Program.bind_eq, Program.bind_assoc]
  exact (hReach.rootForVersion_alwaysEnds hUnfolds hRoot).bind hBegun

/-- In every state that clients can bring about, all who raced to create the lakehouse agree: one
creation at most wrote version 0 and succeeded, the others changed no root and not the hint and were
told so, and the definition of the winner is what everybody is told of the lakehouse for ever. -/
theorem Reachable.initialization_agreed (hReach : Reachable site s) : s.Agreed site := by
  obtain ⟨published, hSound⟩ := hReach.sound
  refine ⟨fun i v d => hSound.first_of_create,
    hReach.sole (site.resolve_ne_hint (RootPath.ofVersion_ne_hint 0)),
    fun d trace => hReach.won_of_creates, fun call hMem d => hReach.ok_iff_creates hMem,
    fun d trace hAttempt hLost change hMem => ?_,
    fun hDistinct call hMem d => hReach.refused_of_lost hDistinct hMem,
    fun d hFirst s' hSteps => ?_⟩
  · obtain ⟨id, hKey⟩ := hReach.onlyDefines_of_lost hAttempt hLost change hMem
    have hBears := DefinitionPath.bears_ofLakehouse id
    rw [hKey]
    exact ⟨site.resolve_ne_hint hBears.ne_hint,
      fun v hSame => hBears.ne_root v (site.resolve_injective hSame)⟩
  · have hLater : Reachable site s' := hReach.trans hSteps
    exact hLater.describes (hReach.first_of_steps hSteps hFirst)

/-- Client 1 won the race, client 0 lost it though no identifier was drawn twice, and client 2 went on
from what client 1 made. -/
theorem agreed_afterRace : afterRace.Agreed .top ∧ (drawnIn afterRace.log).Nodup ∧
    (afterRace.published .top).map (·.1) = [0, 1] ∧
    afterRace.calls.map (fun call => (call.client, call.outcome.toBool)) =
      [(1, true), (0, false), (2, true), (2, true), (2, true)] :=
  ⟨reachable_afterRace.initialization_agreed, by decide +kernel⟩

end System

end SnapshotCatalog
