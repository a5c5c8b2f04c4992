import SnapshotCatalog.Proofs.Exchanges
/-!
How the operations that publish may go. Everything before the creation of a root only reads, draws
or stores a definition, and the creation decides: an operation that is told that it wrote succeeds,
whatever becomes of the hint, and an operation that is told anything else has published nothing.
-/
namespace SnapshotCatalog

open Storage (Memory)
open Program

variable {α : Type} {site : Site} {trace : List Exchange}

theorem LakehouseDef.asks_load_quiet (path : String) : (load site path).Asks Request.Quiet := by
  apply asks_load
  exact rfl

/-- A probe for a root asks for the object of its version. -/
theorem Chain.ran_hasRoot {v : Version} {outcome : Except Error Bool}
    (h : (hasRoot site v).Ran trace outcome) : ∃ answer,
      trace = [⟨.call (.head (site.resolve (RootPath.ofVersion v))), answer⟩] ∧
        outcome = answer.map Option.isSome := by
  obtain ⟨found, hHead, rfl⟩ := Ran.of_map h
  rw [Site.head, site.key_root] at hHead
  exact ⟨found, hHead.of_call, rfl⟩

/-- A creation asks for the object at its path, which must be one that is accepted. -/
theorem Site.ran_create {path : String} {blob : Storage.Blob}
    {outcome : Except Error Storage.WriteOutcome} (h : (site.create path blob).Ran trace outcome) :
    (trace = [] ∧ ∃ e, site.key path = .error e ∧ outcome = .error e) ∨
      trace = [⟨.call (.put (site.resolve path) blob .createNew), outcome⟩] := by
  cases hKey : site.key path with
  | error e =>
      rw [create, hKey] at h
      obtain ⟨rfl, rfl⟩ := h.of_fail
      exact .inl ⟨rfl, e, rfl, rfl⟩
  | ok key =>
      rw [create, hKey, site.eq_resolve_of_key hKey] at h
      exact .inr h.of_call

theorem Site.ran_create_root {v : Version} {blob : Storage.Blob}
    {outcome : Except Error Storage.WriteOutcome}
    (h : (site.create (RootPath.ofVersion v) blob).Ran trace outcome) :
    trace = [⟨.call (.put (site.resolve (RootPath.ofVersion v)) blob .createNew), outcome⟩] := by
  rcases ran_create h with ⟨-, e, hKey, -⟩ | hTrace
  · rw [site.key_root] at hKey
    cases hKey
  · exact hTrace

/-- A write of the hint ends well, however it is answered. -/
theorem Hint.ran_write {v : Version} {outcome : Except Error Unit}
    (h : (write site v).Ran trace outcome) : outcome = .ok () ∧ ∃ blob answer rest,
      trace = ⟨.call (.put (site.resolve path) blob .overwrite), answer⟩ :: rest ∧
        ∀ x ∈ rest, x.request.Quiet := by
  rcases h.of_bind with ⟨result, before, after, rfl, hWrite, hRest⟩ | ⟨e, rfl, hWrite⟩
  · obtain ⟨_, hSame, hWrite⟩ := hWrite.of_attempt
    cases hSame
    -- The write is one call, and nothing more is asked of it.
    obtain ⟨blob, answer, rfl⟩ : ∃ blob answer,
        before = [⟨.call (.put (site.resolve path) blob .overwrite), answer⟩] := by
      rw [Site.overwrite, site.key_hint] at hWrite
      obtain ⟨answer, rest, rfl, ⟨found, -, hEnd⟩ | ⟨e, -, rfl, -⟩⟩ :=
        Ran.of_call_bind (c := .put ..) hWrite
      · refine ⟨_, answer, ?_⟩
        cases found with
        | written => rw [(Ran.of_done hEnd).1]
        | alreadyExists => rw [(Ran.of_fail hEnd).1]
      · exact ⟨_, answer, rfl⟩
    cases result with
    | ok value =>
        obtain ⟨rfl, rfl⟩ := Ran.of_done hRest
        exact ⟨rfl, blob, answer, [], rfl, List.forall_mem_nil _⟩
    | error e =>
        obtain ⟨rfl, rfl⟩ := Ran.of_record hRest
        refine ⟨rfl, blob, answer, _, rfl, fun x hMem => ?_⟩
        rw [List.mem_singleton.mp hMem]
        trivial
  · obtain ⟨_, hNever, -⟩ := hWrite.of_attempt
    cases hNever

/-- How the creation of a definition ends when it is answered so. -/
def Definition.settled (path : String) : Except Error Storage.WriteOutcome → Except Error Unit
  | .ok .written => .ok ()
  | .ok .alreadyExists => .error (.storageWrite (.definitionTaken path) none)
  | .error e => .error e

theorem Definition.ran_store [Definition α] {path : String} {x : α} {outcome : Except Error Unit}
    (h : (store site path x).Ran trace outcome) :
    (trace = [] ∧ ∃ e, site.key path = .error e ∧ outcome = .error e) ∨ ∃ answer,
      trace = [⟨.call (.put (site.resolve path) (.bytes (encode x)) .createNew), answer⟩] ∧
        outcome = settled path answer := by
  rcases h.of_bind with ⟨found, before, after, rfl, hCreate, hRest⟩ | ⟨e, rfl, hCreate⟩
  · rcases Site.ran_create hCreate with ⟨-, e, -, hNever⟩ | rfl
    · cases hNever
    · refine .inr ⟨.ok found, ?_⟩
      cases found with
      | written =>
          obtain ⟨rfl, rfl⟩ := hRest.of_done
          exact ⟨rfl, rfl⟩
      | alreadyExists =>
          obtain ⟨rfl, rfl⟩ := hRest.of_fail
          exact ⟨rfl, rfl⟩
  · rcases Site.ran_create hCreate with ⟨rfl, _, hKey, hSame⟩ | rfl
    · cases hSame
      exact .inl ⟨rfl, e, hKey, rfl⟩
    · exact .inr ⟨.error e, rfl, rfl⟩

/-- A definition that is stored was created at its path. -/
theorem Definition.eq_of_ran_store [Definition α] {path : String} {x : α} {done : Unit}
    (h : (store site path x).Ran trace (.ok done)) :
    trace = [⟨.call (.put (site.resolve path) (.bytes (encode x)) .createNew), .ok .written⟩] := by
  rcases ran_store h with ⟨-, e, -, hNever⟩ | ⟨answer, rfl, hSettled⟩
  · cases hNever
  · cases answer with
    | error e => cases hSettled
    | ok found =>
        cases found with
        | written => rfl
        | alreadyExists => cases hSettled

/-- A definition that is not stored has changed nothing. -/
theorem Definition.alterations_of_ran_store [Definition α] {path : String} {x : α} {e : Error}
    (h : (store site path x).Ran trace (.error e)) : Exchange.alterations trace = [] := by
  rcases ran_store h with ⟨rfl, -⟩ | ⟨answer, rfl, hSettled⟩
  · rfl
  · cases answer with
    | error e => rfl
    | ok found =>
        cases found with
        | written => cases hSettled
        | alreadyExists => rfl

namespace Lakehouse

/-- How a change ends that brings a definition, when the creation of the definition is answered so. -/
def placed (t : Transaction) (key place : String) (answer : Except Error Storage.WriteOutcome) :
    Except Error Transaction :=
  (Definition.settled place answer).map fun _ => t.withRunning (t.running.withRow key place)

/-- How storing the definition of a row may go. Once an identifier is drawn, a path that is not accepted
is refused, and for any other the answer to the creation decides. -/
inductive DefineCourse (site : Site) (t : Transaction) (key : String) (path : Uuid → String)
    (data : List UInt8) : List Exchange → Except Error Transaction → Prop
  | refused {id : Uuid} {e : Error} (hCheck : Path.check (path id) = .error e) :
      DefineCourse site t key path data [⟨.freshUuid, id⟩] (.error e)
  | answered {id : Uuid} {answer : Except Error Storage.WriteOutcome}
      (hCheck : Path.check (path id) = .ok ()) :
      DefineCourse site t key path data
        [⟨.freshUuid, id⟩, ⟨.call (.put (site.resolve (path id)) (.bytes data) .createNew), answer⟩]
        (placed t key (path id) answer)

theorem ran_define [Definition α] {t : Transaction} {key : String} {path : Uuid → String} {x : α}
    {outcome : Except Error Transaction} (h : (define site t key path x).Ran trace outcome) :
    DefineCourse site t key path (Definition.encode x) trace outcome := by
  obtain ⟨id, rest, rfl, hDrawn⟩ := h.of_freshUuid_bind
  obtain ⟨result, hStore, rfl⟩ := Ran.of_map hDrawn
  cases hCheck : Path.check (path id) with
  | error e =>
      rw [Definition.store, Site.create, Site.key, hCheck] at hStore
      obtain ⟨rfl, rfl⟩ := hStore.of_fail
      exact .refused hCheck
  | ok value =>
      rcases Definition.ran_store hStore with ⟨-, e, hNever, -⟩ | ⟨answer, rfl, rfl⟩
      · rw [site.key_of_check hCheck] at hNever
        cases hNever
      · exact .answered hCheck

/-- The creation of the root of a version, and what was answered. -/
def creation (site : Site) (version : Version) (r : Root) (time : Millis)
    (answer : Except Error Storage.WriteOutcome) : Exchange :=
  ⟨.call (.put (site.resolve (RootPath.ofVersion version)) (.node (Node.encode r time)) .createNew),
    answer⟩

/-- How publishing a root may go. -/
inductive PublishCourse (site : Site) (version : Version) (d : LakehouseDef) (r : Root) :
    List Exchange → Except Error (Option Root) → Prop
  | large {time : Millis} {e : Error} (hSize : checkSize (Node.encode r time) d = .error e) :
      PublishCourse site version d r [⟨.clock, time⟩] (.error e)
  | failed {time : Millis} {e : Error} (hSize : checkSize (Node.encode r time) d = .ok ()) :
      PublishCourse site version d r [⟨.clock, time⟩, creation site version r time (.error e)]
        (.error e)
  | lost {time : Millis} (hSize : checkSize (Node.encode r time) d = .ok ()) :
      PublishCourse site version d r
        [⟨.clock, time⟩, creation site version r time (.ok .alreadyExists)] (.ok none)
  | won {time : Millis} {blob : Storage.Blob} {answer : Except Error Storage.WriteOutcome}
      {rest : List Exchange} (hSize : checkSize (Node.encode r time) d = .ok ())
      (hRest : ∀ x ∈ rest, x.request.Quiet) :
      PublishCourse site version d r
        (⟨.clock, time⟩ :: creation site version r time (.ok .written) ::
          ⟨.call (.put (site.resolve Hint.path) blob .overwrite), answer⟩ :: rest)
        (.ok (some (r.persistedAt (.ofVersion version) time)))

theorem ran_publish {version : Version} {d : LakehouseDef} {r : Root}
    {outcome : Except Error (Option Root)} (h : (publish site version d r).Ran trace outcome) :
    PublishCourse site version d r trace outcome := by
  obtain ⟨time, rest, rfl, hStamped⟩ := h.of_clock_bind
  rcases hStamped.of_ofExcept_bind with ⟨_, hSize, hFits⟩ | ⟨e, hSize, rfl, rfl⟩
  · rcases hFits.of_bind with ⟨found, create, after, rfl, hCreate, hEnd⟩ | ⟨e, rfl, hCreate⟩
    · obtain rfl := Site.ran_create_root hCreate
      cases found with
      | alreadyExists =>
          obtain ⟨rfl, rfl⟩ := Ran.of_done hEnd
          exact .lost hSize
      | written =>
          rcases hEnd.of_bind with ⟨_, write, last, rfl, hWrite, hDone⟩ | ⟨e, rfl, hWrite⟩
          · obtain ⟨-, blob, answer, rest, rfl, hQuiet⟩ := Hint.ran_write hWrite
            obtain ⟨rfl, rfl⟩ := Ran.of_done hDone
            rw [List.append_nil]
            exact .won hSize hQuiet
          · cases (Hint.ran_write hWrite).1
    · obtain rfl := Site.ran_create_root hCreate
      exact .failed hSize
  · exact .large hSize

/-- How the creation of a lakehouse may go. -/
inductive CreateCourse (site : Site) (d : LakehouseDef) :
    List Exchange → Except Error Root → Prop
  | invalid {e : Error} (hInvalid : d.validate = .error e) : CreateCourse site d [] (.error e)
  | unprobed {probe : List Exchange} {e : Error} (hProbe : (Chain.hasRoot site 0).Ran probe (.error e)) :
      CreateCourse site d probe (.error e)
  | late {probe : List Exchange} (hProbe : (Chain.hasRoot site 0).Ran probe (.ok true)) :
      CreateCourse site d probe (.error (.objectAlreadyExists .initialized))
  | undefined {probe write : List Exchange} {id : Uuid} {e : Error}
      (hProbe : (Chain.hasRoot site 0).Ran probe (.ok false))
      (hWrite : (Definition.store site (DefinitionPath.ofLakehouse id) d).Ran write (.error e)) :
      CreateCourse site d (probe ++ ⟨.freshUuid, id⟩ :: write) (.error e)
  | unpublished {probe write publish : List Exchange} {id : Uuid} {e : Error}
      (hProbe : (Chain.hasRoot site 0).Ran probe (.ok false))
      (hWrite : (Definition.store site (DefinitionPath.ofLakehouse id) d).Ran write (.ok ()))
      (hPublish : PublishCourse site 0 d (.new (DefinitionPath.ofLakehouse id)) publish (.error e)) :
      CreateCourse site d (probe ++ ⟨.freshUuid, id⟩ :: (write ++ publish)) (.error e)
  | lost {probe write publish : List Exchange} {id : Uuid}
      (hProbe : (Chain.hasRoot site 0).Ran probe (.ok false))
      (hWrite : (Definition.store site (DefinitionPath.ofLakehouse id) d).Ran write (.ok ()))
      (hPublish : PublishCourse site 0 d (.new (DefinitionPath.ofLakehouse id)) publish (.ok none)) :
      CreateCourse site d (probe ++ ⟨.freshUuid, id⟩ :: (write ++ publish))
        (.error (.objectAlreadyExists .initialized))
  | won {probe write publish : List Exchange} {id : Uuid} {root : Root}
      (hProbe : (Chain.hasRoot site 0).Ran probe (.ok false))
      (hWrite : (Definition.store site (DefinitionPath.ofLakehouse id) d).Ran write (.ok ()))
      (hPublish : PublishCourse site 0 d (.new (DefinitionPath.ofLakehouse id)) publish
        (.ok (some root))) :
      CreateCourse site d (probe ++ ⟨.freshUuid, id⟩ :: (write ++ publish)) (.ok root)

theorem ran_create {d : LakehouseDef} {outcome : Except Error Root}
    (h : (create site d).Ran trace outcome) : CreateCourse site d trace outcome := by
  rcases h.of_ofExcept_bind with ⟨_, -, hValid⟩ | ⟨e, hInvalid, rfl, rfl⟩
  · rcases hValid.of_bind with ⟨found, probe, rest, rfl, hProbe, hRest⟩ | ⟨e, rfl, hProbe⟩
    · cases found with
      | true =>
          obtain ⟨rfl, rfl⟩ := Ran.of_fail hRest
          rw [List.append_nil]
          exact .late hProbe
      | false =>
          obtain ⟨id, rest, rfl, hDrawn⟩ := Ran.of_freshUuid_bind hRest
          rcases hDrawn.of_bind with ⟨_, write, rest, rfl, hWrite, hRest⟩ | ⟨e, rfl, hWrite⟩
          · rcases hRest.of_bind with ⟨result, publish, rest, rfl, hPublish, hEnd⟩ | ⟨e, rfl, hPublish⟩
            · cases result with
              | some root =>
                  obtain ⟨rfl, rfl⟩ := Ran.of_done hEnd
                  rw [List.append_nil]
                  exact .won hProbe hWrite (ran_publish hPublish)
              | none =>
                  obtain ⟨rfl, rfl⟩ := Ran.of_fail hEnd
                  rw [List.append_nil]
                  exact .lost hProbe hWrite (ran_publish hPublish)
            · exact .unpublished hProbe hWrite (ran_publish hPublish)
          · exact .undefined hProbe hWrite
    · exact .unprobed hProbe
  · exact .invalid hInvalid

/-- How a commit may go. -/
inductive CommitCourse (site : Site) (t : Transaction) :
    List Exchange → Except Error Committed → Prop
  | refused {e : Error} (hDraft : draft t = .error e) : CommitCourse site t [] (.error e)
  | unread {version : Version} {root : Root} {load : List Exchange} {e : Error}
      (hDraft : draft t = .ok (version, root))
      (hLoad : (LakehouseDef.load site root.lakehouseDefPath).Ran load (.error e)) :
      CommitCourse site t load (.error e)
  | unpublished {version : Version} {root : Root} {d : LakehouseDef} {load publish : List Exchange}
      {e : Error} (hDraft : draft t = .ok (version, root))
      (hLoad : (LakehouseDef.load site root.lakehouseDefPath).Ran load (.ok d))
      (hPublish : PublishCourse site version d root publish (.error e)) :
      CommitCourse site t (load ++ publish) (.error e)
  | lost {version : Version} {root : Root} {d : LakehouseDef} {load publish : List Exchange}
      (hDraft : draft t = .ok (version, root))
      (hLoad : (LakehouseDef.load site root.lakehouseDefPath).Ran load (.ok d))
      (hPublish : PublishCourse site version d root publish (.ok none)) :
      CommitCourse site t (load ++ (publish ++ [⟨.record .conflict, ()⟩]))
        (.error (.commitFailure version (RootPath.ofVersion version)))
  | won {version : Version} {root published : Root} {d : LakehouseDef}
      {load publish : List Exchange} (hDraft : draft t = .ok (version, root))
      (hLoad : (LakehouseDef.load site root.lakehouseDefPath).Ran load (.ok d))
      (hPublish : PublishCourse site version d root publish (.ok (some published))) :
      CommitCourse site t (load ++ (publish ++ [⟨.record (.commit t.changes), ()⟩]))
        (.ok ⟨t.id, published⟩)

theorem ran_commit {t : Transaction} {outcome : Except Error Committed}
    (h : (commit site t).Ran trace outcome) : CommitCourse site t trace outcome := by
  rcases h.of_ofExcept_bind with ⟨⟨version, root⟩, hDraft, hDrafted⟩ | ⟨e, hDraft, rfl, rfl⟩
  · rcases hDrafted.of_bind with ⟨d, load, rest, rfl, hLoad, hRest⟩ | ⟨e, rfl, hLoad⟩
    · rcases hRest.of_bind with ⟨result, publish, rest, rfl, hPublish, hEnd⟩ | ⟨e, rfl, hPublish⟩
      · cases result with
        | none =>
            obtain ⟨rest, rfl, hFailed⟩ := Ran.of_record_bind hEnd
            obtain ⟨rfl, rfl⟩ := Ran.of_fail hFailed
            exact .lost hDraft hLoad (ran_publish hPublish)
        | some published =>
            obtain ⟨rest, rfl, hDone⟩ := Ran.of_record_bind hEnd
            obtain ⟨rfl, rfl⟩ := Ran.of_done hDone
            exact .won hDraft hLoad (ran_publish hPublish)
      · exact .unpublished hDraft hLoad (ran_publish hPublish)
    · exact .unread hDraft hLoad
  · exact .refused hDraft

/-- The exchanges of an operation that published a root: some before, the creation that wrote, a write
of the hint with whatever answer, and nothing else that matters. -/
def Published (site : Site) (version : Version) (r : Root) (time : Millis)
    (before : List Exchange) (answer : Except Error Storage.WriteOutcome) (trace : List Exchange) :
    Prop :=
  ∃ blob after, trace = before ++ creation site version r time (.ok .written) ::
    ⟨.call (.put (site.resolve Hint.path) blob .overwrite), answer⟩ :: after ∧
      ∀ x ∈ after, x.request.Quiet

theorem Published.mem_creation {version : Version} {r : Root} {time : Millis} {before : List Exchange}
    {answer : Except Error Storage.WriteOutcome} (h : Published site version r time before answer trace) :
    creation site version r time (.ok .written) ∈ trace := by
  obtain ⟨blob, after, rfl, -⟩ := h
  exact List.mem_append_right _ (List.mem_cons_self ..)

theorem PublishCourse.of_some {version : Version} {d : LakehouseDef} {r root : Root}
    (h : PublishCourse site version d r trace (.ok (some root))) :
    ∃ time answer, Published site version r time [⟨.clock, time⟩] answer trace ∧
      checkSize (Node.encode r time) d = .ok () ∧
      root = r.persistedAt (.ofVersion version) time := by
  cases h with
  | won hSize hRest => exact ⟨_, _, ⟨_, _, rfl, hRest⟩, hSize, rfl⟩

/-- More before and something quiet after make no difference. -/
theorem Published.extend {version : Version} {r : Root} {time : Millis} {before : List Exchange}
    {answer : Except Error Storage.WriteOutcome} (h : Published site version r time before answer trace)
    (earlier later : List Exchange) (hLater : ∀ x ∈ later, x.request.Quiet) :
    Published site version r time (earlier ++ before) answer (earlier ++ (trace ++ later)) := by
  obtain ⟨blob, after, rfl, hAfter⟩ := h
  refine ⟨blob, after ++ later, by simp only [List.append_assoc, List.cons_append], fun x hMem => ?_⟩
  rcases List.mem_append.mp hMem with hMem | hMem
  · exact hAfter x hMem
  · exact hLater x hMem

/-- A commit that succeeds has drafted its root, read the definition and published. -/
theorem CommitCourse.of_ok {t : Transaction} {c : Committed} (h : CommitCourse site t trace (.ok c)) :
    ∃ version root d time before answer, draft t = .ok (version, root) ∧
      Published site version root time before answer trace ∧ (∀ x ∈ before, x.request.Quiet) ∧
      checkSize (Node.encode root time) d = .ok () ∧
      c = ⟨t.id, root.persistedAt (.ofVersion version) time⟩ := by
  cases h with
  | @won version root published d load publish hDraft hLoad hPublish =>
      obtain ⟨time, answer, hPublished, hSize, rfl⟩ := hPublish.of_some
      refine ⟨version, root, d, time, _, answer, hDraft, hPublished.extend load _ fun x hMem => ?_,
        fun x hMem => ?_, hSize, rfl⟩
      · rw [List.mem_singleton.mp hMem]
        trivial
      · rcases List.mem_append.mp hMem with hMem | hMem
        · exact hLoad.of_asks (LakehouseDef.asks_load_quiet _) x hMem
        · rw [List.mem_singleton.mp hMem]
          trivial

/-- A creation that succeeds has published an empty root that names a definition of its own. -/
theorem CreateCourse.of_ok {d : LakehouseDef} {root : Root}
    (h : CreateCourse site d trace (.ok root)) : ∃ id time before answer,
      Published site 0 (.new (DefinitionPath.ofLakehouse id)) time before answer trace ∧
      checkSize (Node.encode (.new (DefinitionPath.ofLakehouse id)) time) d = .ok () ∧
      root = (Root.new (DefinitionPath.ofLakehouse id)).persistedAt (.ofVersion 0) time := by
  cases h with
  | @won probe write publish id root hProbe hWrite hPublish =>
      obtain ⟨time, answer, hPublished, hSize, rfl⟩ := hPublish.of_some
      have hAll := hPublished.extend (probe ++ ⟨.freshUuid, id⟩ :: write) [] (List.forall_mem_nil _)
      rw [List.append_nil, List.append_assoc probe _ publish, List.cons_append] at hAll
      exact ⟨id, time, _, answer, hAll, hSize, rfl⟩

end Lakehouse

end SnapshotCatalog
