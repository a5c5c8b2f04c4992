import SnapshotCatalog.Proofs.Courses
import SnapshotCatalog.Proofs.Serialization
/-!
What changes and commits leave in the store. Whatever calls fail, an operation that ends with an
error leaves the store as it was. A change that succeeds adds the definition that it brings and
nothing else, a commit adds the root of its version, and of all other objects only the hint may be
different afterwards. Nothing is assumed of the transaction or of what is stored.
-/
namespace SnapshotCatalog

open Storage (Memory)
open Program Exchange

variable {α : Type} {site : Site} {m m' : Memory} {trace : List Exchange}

namespace System

/-- Exchanges that change nothing leave the store as it was. -/
theorem ServesAll.eq_of_no_alterations (h : ServesAll m trace m')
    (hNone : alterations trace = []) : m' = m := by
  rw [h.store_eq, hNone]
  rfl

/-- Exchanges the first change of which is a creation found nothing at its key. -/
theorem ServesAll.of_creation {before after : List Exchange} {key : String} {blob : Storage.Blob}
    (h : ServesAll m
      (before ++ ⟨.call (.put key blob .createNew), .ok .written⟩ :: after) m')
    (hBefore : alterations before = []) :
    m.get? key = none ∧ m' = (alterations after).foldl Memory.alter (m.insert key blob) := by
  obtain ⟨middle, hFirst, hRest⟩ := h.of_append
  obtain rfl := hFirst.eq_of_no_alterations hBefore
  cases hRest with
  | cons hServes hAfter =>
      rcases hServes.createNew with ⟨hAbsent, -, rfl⟩ | ⟨-, hNever, -⟩ | ⟨e, -, hNever, -⟩
      · exact ⟨get?_of_not_contains (Bool.eq_false_iff.mp hAbsent), hAfter.store_eq⟩
      · cases hNever
      · cases hNever

end System

/-! ### Changes -/

/-- What a change leaves in a store, when it ends so. -/
inductive Change.Leaves (site : Site) (c : Change) (m : Memory) :
    Except Error Transaction → Memory → Prop
  | failed (e : Error) : Leaves site c m (.error e) m
  | removed (t : Transaction) (hNone : c.definition? = none) : Leaves site c m (.ok t) m
  | defined (t : Transaction) {data : List UInt8} {path : Uuid → String} {id : Uuid}
      (hDefinition : c.definition? = some (data, path))
      (hAbsent : m.get? (site.resolve (path id)) = none) :
      Leaves site c m (.ok t) (m.insert (site.resolve (path id)) (.bytes data))

namespace Change

variable {c : Change} {t : Transaction} {outcome : Except Error Transaction}

/-- Whatever is answered, a change leaves what it should. -/
theorem leaves_of_ran (h : (c.program site t).Ran trace outcome)
    (hServes : System.ServesAll m trace m') : c.Leaves site m outcome m' := by
  have hQuiet : (Lakehouse.look site t c.target).Asks Request.Quiet := by
    apply Lakehouse.asks_look
    exact rfl
  rw [c.program_eq] at h
  rcases h.of_bind with ⟨key, look, rest, rfl, hLook, hPerform⟩ | ⟨e, rfl, hLook⟩
  · have hLooked := alterations_of_quiet (hLook.of_asks hQuiet)
    rcases c.perform_cases with ⟨hNone, hEq⟩ | ⟨β, _, x, path, hDefinition, hEq⟩
    · rw [hEq] at hPerform
      obtain ⟨rfl, rfl⟩ := hPerform.of_done
      rw [hServes.eq_of_no_alterations (by rw [alterations_append, hLooked]; rfl)]
      exact .removed _ hNone
    · rw [hEq] at hPerform
      -- Whatever was exchanged before the creation is answered has changed nothing.
      have hBefore (id : Uuid) : alterations (look ++ [⟨.freshUuid, id⟩]) = [] := by
        rw [alterations_append, hLooked]
        rfl
      cases Lakehouse.ran_define hPerform with
      | @refused id e hCheck =>
          rw [hServes.eq_of_no_alterations (hBefore id)]
          exact .failed e
      | @answered id answer hCheck =>
          rw [← List.singleton_append, ← List.append_assoc] at hServes
          have hRefused (hNone : alterations [⟨.call (.put (site.resolve (path id))
              (.bytes (Definition.encode x)) .createNew), answer⟩] = []) : m' = m :=
            hServes.eq_of_no_alterations (by rw [alterations_append, hBefore, hNone]; rfl)
          cases answer with
          | error e => exact hRefused rfl ▸ .failed e
          | ok found =>
              cases found with
              | alreadyExists => exact hRefused rfl ▸ .failed _
              | written =>
                  obtain ⟨hAbsent, rfl⟩ := hServes.of_creation (hBefore id)
                  exact .defined _ hDefinition hAbsent
  · rw [hServes.eq_of_no_alterations (alterations_of_quiet (hLook.of_asks hQuiet))]
    exact .failed e

end Change

/-! ### Commits -/

/-- Among the exchanges is a write of the hint that failed. -/
def HintFailed (site : Site) (trace : List Exchange) : Prop :=
  ∃ blob e, ⟨.call (.put (site.resolve Hint.path) blob .overwrite), .error e⟩ ∈ trace

/-- A request that overwrites nothing. -/
def Request.Careful (r : Request) : Prop :=
  ∀ key blob, r ≠ .call (.put key blob .overwrite)

theorem Request.Quiet.careful {r : Request} (h : r.Quiet) : r.Careful := by
  rintro key blob rfl
  cases h

theorem Request.careful_createNew (key : String) (blob : Storage.Blob) :
    (Request.call (.put key blob .createNew)).Careful := by
  rintro _ _ ⟨⟩

theorem not_hintFailed {trace : List Exchange} (h : ∀ x ∈ trace, x.request.Careful) :
    ¬ HintFailed site trace := by
  rintro ⟨blob, e, hMem⟩
  exact h _ hMem _ _ rfl

namespace Lakehouse

/-- What a commit leaves in a store, when it makes these exchanges and ends so. Where the write of
the hint failed, the commit has succeeded and left the root and nothing else. -/
inductive CommitLeaves (site : Site) (t : Transaction) (m : Memory) (trace : List Exchange) :
    Except Error Committed → Memory → Prop
  | failed (e : Error) (hHint : ¬ HintFailed site trace) : CommitLeaves site t m trace (.error e) m
  | published {location : Location} {version : Version} (c : Committed)
      (hBeginning : t.beginning.location = some location)
      (hNext : version.toNat = location.version.toNat + 1)
      (hAbsent : m.get? (site.resolve (RootPath.ofVersion version)) = none) :
      CommitLeaves site t m trace (.ok c)
        (m.insert (site.resolve (RootPath.ofVersion version)) c.root.blob)
  | hinted {location : Location} {version : Version} {blob : Storage.Blob} (c : Committed)
      (hBeginning : t.beginning.location = some location)
      (hNext : version.toNat = location.version.toNat + 1)
      (hAbsent : m.get? (site.resolve (RootPath.ofVersion version)) = none)
      (hHint : ¬ HintFailed site trace) :
      CommitLeaves site t m trace (.ok c)
        ((m.insert (site.resolve (RootPath.ofVersion version)) c.root.blob).insert
          (site.resolve Hint.path) blob)

/-- Whoever publishes nothing changes nothing and does not touch the hint. -/
theorem PublishCourse.of_not_some {version : Version} {d : LakehouseDef} {r : Root}
    {outcome : Except Error (Option Root)} (h : PublishCourse site version d r trace outcome)
    (hNone : ∀ root, outcome ≠ .ok (some root)) :
    alterations trace = [] ∧ ∀ x ∈ trace, x.request.Careful := by
  have hClock (time : Millis) : (Exchange.mk .clock time).request.Careful :=
    Request.Quiet.careful (r := .clock) trivial
  cases h with
  | large hSize =>
      refine ⟨rfl, fun x hMem => ?_⟩
      rw [List.mem_singleton.mp hMem]
      exact hClock _
  | failed hSize =>
      refine ⟨rfl, fun x hMem => ?_⟩
      rcases List.mem_pair.mp hMem with rfl | rfl
      · exact hClock _
      · exact Request.careful_createNew _ _
  | lost hSize =>
      refine ⟨rfl, fun x hMem => ?_⟩
      rcases List.mem_pair.mp hMem with rfl | rfl
      · exact hClock _
      · exact Request.careful_createNew _ _
  | won hSize hRest => exact absurd rfl (hNone _)

/-- A commit that fails has changed nothing and not touched the hint. -/
theorem CommitCourse.of_error {t : Transaction} {e : Error}
    (h : CommitCourse site t trace (.error e)) :
    alterations trace = [] ∧ ∀ x ∈ trace, x.request.Careful := by
  have hAppend {before after : List Exchange} (hBefore : ∀ x ∈ before, x.request.Quiet)
      (hAfter : alterations after = [] ∧ ∀ x ∈ after, x.request.Careful) :
      alterations (before ++ after) = [] ∧ ∀ x ∈ before ++ after, x.request.Careful := by
    refine ⟨by rw [alterations_append, alterations_of_quiet hBefore, hAfter.1]; rfl, ?_⟩
    exact List.forall_mem_append.mpr ⟨fun x hMem => (hBefore x hMem).careful, hAfter.2⟩
  cases h with
  | refused hDraft => exact ⟨rfl, fun _ hMem => nomatch hMem⟩
  | unread hDraft hLoad =>
      have hLoaded := hLoad.of_asks (LakehouseDef.asks_load_quiet _)
      exact ⟨alterations_of_quiet hLoaded, fun x hMem => (hLoaded x hMem).careful⟩
  | unpublished hDraft hLoad hPublish =>
      exact hAppend (hLoad.of_asks (LakehouseDef.asks_load_quiet _)) (hPublish.of_not_some nofun)
  | lost hDraft hLoad hPublish =>
      obtain ⟨hNone, hCareful⟩ := hPublish.of_not_some nofun
      refine hAppend (hLoad.of_asks (LakehouseDef.asks_load_quiet _)) ⟨by rw [alterations_append, hNone]; rfl, ?_⟩
      refine List.forall_mem_append.mpr ⟨hCareful, fun x hMem => ?_⟩
      rw [List.mem_singleton.mp hMem]
      exact Request.Quiet.careful (r := .record .conflict) trivial

/-- Whatever is answered, a commit leaves what it should. -/
theorem commitLeaves_of_ran {t : Transaction} {outcome : Except Error Committed}
    (h : (commit site t).Ran trace outcome) (hServes : System.ServesAll m trace m') :
    CommitLeaves site t m trace outcome m' := by
  cases outcome with
  | error e =>
      obtain ⟨hNone, hCareful⟩ := (ran_commit h).of_error
      rw [hServes.eq_of_no_alterations hNone]
      exact .failed e (not_hintFailed hCareful)
  | ok c =>
      obtain ⟨version, root, d, time, before, answer, hDraft, ⟨blob, after, rfl, hAfter⟩, hBefore, -,
        rfl⟩ := (ran_commit h).of_ok
      obtain ⟨location, hLocation, hMore, rfl, -⟩ := draft_eq_ok hDraft
      have hNext : (location.version + 1).toNat = location.version.toNat + 1 :=
        UInt64.toNat_add_one hMore
      obtain ⟨hAbsent, rfl⟩ := hServes.of_creation (alterations_of_quiet hBefore)
      rw [alterations_cons, alterations_of_quiet hAfter, List.append_nil]
      cases answer with
      | error e =>
          rw [alteration?_error]
          exact .published _ hLocation hNext hAbsent
      | ok found =>
          cases found with
          | alreadyExists => exact .published _ hLocation hNext hAbsent
          | written =>
              refine .hinted _ hLocation hNext hAbsent ?_
              -- The write of the hint did not fail, and there was no other.
              rintro ⟨other, e, hMem⟩
              have hCareless :
                  ¬ (Request.call (.put (site.resolve Hint.path) other .overwrite)).Careful :=
                fun hCareful => hCareful _ _ rfl
              rcases List.mem_append.mp hMem with hMem | hMem
              · exact hCareless (hBefore _ hMem).careful
              · rcases List.mem_cons.mp hMem with hSame | hMem
                · have hRequest := congrArg Exchange.request hSame
                  exact Request.careful_createNew _ _ _ _ hRequest.symm
                · rcases List.mem_cons.mp hMem with hSame | hMem
                  · cases hSame
                  · exact hCareless (hAfter _ hMem).careful

/-- Whoever answers, and whatever calls fail: a change or a commit that ends with an error leaves the
store as it was, a change that succeeds adds its definition if it brings one, and a commit that
succeeds adds its root and may change the hint. -/
theorem failures_leave_store {σ : Type} {memory : σ → Memory}
    {answer : (r : Request) → σ → r.Answer × σ} (hAnswers : AnswersFrom memory answer) (site : Site)
    (t : Transaction) (w : σ) :
    (∀ c : Change, c.Leaves site (memory w) ((c.program site t).run answer w).1
      (memory ((c.program site t).run answer w).2)) ∧
    CommitLeaves site t (memory w) ((commit site t).exchanges answer w)
      ((commit site t).run answer w).1 (memory ((commit site t).run answer w).2) :=
  ⟨fun _ => Change.leaves_of_ran (ran_exchanges answer _ w) (System.servesAll_exchanges hAnswers _ w),
    commitLeaves_of_ran (ran_exchanges answer _ w) (System.servesAll_exchanges hAnswers _ w)⟩

end Lakehouse

/-- A desk at which nobody tampers with the hint, and whose calls fail with faults if at all, answers
as its store does. -/
theorem Desk.answersFrom_of_faults {site : Site} (supply : Supply) {mischief : Nat → Mischief}
    (hObject : ∀ n, (mischief n).object = none)
    (hFault : ∀ n c e, (mischief n).fault? site c = some e → e.isFault = true) :
    AnswersFrom Desk.store (answer site supply mischief) := by
  intro r d
  have hStore : (d.disturb site mischief).store = d.store := by
    rw [disturb, Mischief.tamper, hObject]
  cases r with
  | call c =>
      rw [← hStore]
      cases hCall : (mischief d.requests).fault? site c with
      | none =>
          rw [answer, hCall]
          exact .performed c
      | some e =>
          rw [answer, hCall]
          exact .failed c e (hFault _ c e hCall)
  | freshUuid => exact hStore ▸ .uuid _
  | freshTransactionId => exact hStore ▸ .transactionId _
  | clock => exact hStore ▸ .clock _
  | record measurement => exact hStore ▸ .record measurement

namespace Lakehouse

/-- Answers as a desk where every write of the hint fails. -/
def answerHintless : (r : Request) → Desk → r.Answer × Desk :=
  Desk.answer .top (.counting 5) fun _ =>
    ⟨none, none, some (.storageWrite (.overwriteRefused Hint.path) none)⟩

theorem answersFrom_hintless : AnswersFrom Desk.store answerHintless := by
  refine Desk.answersFrom_of_faults _ (fun _ => rfl) fun _ c e hFault => ?_
  rw [Mischief.fault?] at hFault
  split at hFault
  · split at hFault
    · cases hFault
      rfl
    · cases hFault
  · cases hFault

/-- A commit publishes its root where every write of the hint fails, and leaves no hint. -/
theorem commit_hintless : ∃ t w,
    CommitLeaves .top t (Desk.store w) ((commit .top t).exchanges answerHintless w)
      ((commit .top t).run answerHintless w).1 ((commit .top t).run answerHintless w).2.store ∧
    ((commit .top t).run answerHintless w).2.store.contains (RootPath.ofVersion 1) = true ∧
    ((commit .top t).run answerHintless w).2.store.contains Hint.path = false := by
  have hEnd : (Session.held .top answerHintless (Session.sample.take 3) [] .empty)[1]?.map (fun t =>
      let w := (Session.run .top answerHintless (Session.sample.take 3) [] .empty).2
      let store := ((commit .top t).run answerHintless w).2.store
      (store.contains (RootPath.ofVersion 1), store.contains Hint.path)) = some (true, false) := by
    decide +kernel
  obtain ⟨t, -, hStored⟩ := Option.map_eq_some_iff.mp hEnd
  obtain ⟨hRoot, hHint⟩ := Prod.mk.inj hStored
  exact ⟨t, _, (failures_leave_store answersFrom_hintless .top t _).2, hRoot, hHint⟩

end Lakehouse

end SnapshotCatalog
