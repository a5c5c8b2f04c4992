import SnapshotCatalog.Proofs.Exchanges
import SnapshotCatalog.Proofs.StillStore
/-!
Programs that run while others change the store. A history tells what is stored at every instant;
each request of a program is answered at some instant after the one before it, and between its
requests anything may happen. The operations that clients run side by side are such programs, in the
history that all the clients bring about together.
-/
namespace SnapshotCatalog

open Storage (Memory)

/-- When nothing is lost from one instant to the next, nothing is lost at all. -/
theorem Site.grows_of_le {site : Site} {store : Nat → Memory}
    (hGrows : ∀ now, site.Grows (store now) (store (now + 1))) {now later : Nat}
    (hLater : now ≤ later) : site.Grows (store now) (store later) := by
  induction hLater with
  | refl => exact .refl _
  | step _ ih => exact ih.trans (hGrows _)

/-- The outcome of an operation one of whose calls the store did not perform. -/
def Faulted {α : Type} (outcome : Except Error α) : Prop :=
  ∃ e : Error, outcome = .error e ∧ e.isFault = true

/-- In the history of a store the program starts at one instant, has ended so at another, and each of
its requests was answered in between. -/
inductive Program.RunsDuring {α : Type} (store : Nat → Memory) :
    Program α → Nat → Nat → Except Error α → Prop
  | done {start finish : Nat} (value : α) (h : start ≤ finish) :
      RunsDuring store (.done value) start finish (.ok value)
  | fail {start finish : Nat} (e : Error) (h : start ≤ finish) :
      RunsDuring store (.fail e) start finish (.error e)
  | answer {r : Request} {next : r.Answer → Program α} {a : r.Answer} {start now finish : Nat}
      {outcome : Except Error α} (hNow : start ≤ now)
      (hServes : System.Serves (store now) r a (store (now + 1)))
      (hRest : RunsDuring store (next a) (now + 1) finish outcome) :
      RunsDuring store (.request r next) start finish outcome

/-- A call is performed, or it fails without effect. -/
theorem System.Serves.of_call {m m' : Memory} {c : Storage.Call} {a : c.Answer}
    (h : Serves m (.call c) a m') :
    (a = (Memory.answer c m).1 ∧ m' = (Memory.answer c m).2) ∨ Faulted a ∧ m' = m := by
  cases h with
  | performed => exact .inl ⟨rfl, rfl⟩
  | failed _ e hFault => exact .inr ⟨⟨e, rfl, hFault⟩, rfl⟩

/-- The same error ends an operation with another kind of value. -/
theorem Faulted.of_error {α β : Type} {e : Error} (h : Faulted (.error e : Except Error α)) :
    Faulted (.error e : Except Error β) := by
  obtain ⟨_, ⟨⟩, hFault⟩ := h
  exact ⟨e, rfl, hFault⟩

theorem not_faulted_ok {α : Type} {value : α} : ¬ Faulted (.ok value : Except Error α) := nofun

namespace Program.RunsDuring

variable {α β : Type} {store : Nat → Memory} {p : Program α} {next : α → Program β}
  {start middle finish : Nat}

theorem le {outcome : Except Error α} (h : p.RunsDuring store start finish outcome) :
    start ≤ finish := by
  induction h with
  | done value h => exact h
  | fail e h => exact h
  | answer hNow _ _ ih => omega

/-- Whoever runs from a later instant on has been running from an earlier one on. -/
theorem from_earlier {earlier : Nat} {outcome : Except Error α}
    (h : p.RunsDuring store start finish outcome) (hEarlier : earlier ≤ start) :
    p.RunsDuring store earlier finish outcome := by
  cases h with
  | done value h => exact .done value (Nat.le_trans hEarlier h)
  | fail e h => exact .fail e (Nat.le_trans hEarlier h)
  | answer hNow hServes hRest => exact .answer (Nat.le_trans hEarlier hNow) hServes hRest

theorem eq_ok_of_done {value : α} {outcome : Except Error α}
    (h : (Program.done value).RunsDuring store start finish outcome) : outcome = .ok value := by
  cases h
  rfl

theorem eq_error_of_fail {e : Error} {outcome : Except Error α}
    (h : (Program.fail e : Program α).RunsDuring store start finish outcome) :
    outcome = .error e := by
  cases h
  rfl

/-- A sequence ends with the error of its first part, or it runs on with the value of that part. -/
theorem of_bind {outcome : Except Error β} (h : (p.bind next).RunsDuring store start finish outcome) :
    (∃ value middle, p.RunsDuring store start middle (.ok value) ∧
      (next value).RunsDuring store middle finish outcome) ∨
    ∃ e, outcome = .error e ∧ p.RunsDuring store start finish (.error e) := by
  induction p generalizing start with
  | done value => exact .inl ⟨value, start, .done value (Nat.le_refl start), h⟩
  | fail e =>
      cases h with
      | fail e h => exact .inr ⟨e, rfl, .fail e h⟩
  | request r rest ih =>
      cases h with
      | answer hNow hServes hRest =>
          rcases ih _ hRest with ⟨value, middle, hFirst, hNext⟩ | ⟨e, rfl, hFirst⟩
          · exact .inl ⟨value, middle, .answer hNow hServes hFirst, hNext⟩
          · exact .inr ⟨e, rfl, .answer hNow hServes hFirst⟩

theorem of_attempt {outcome : Except Error (Except Error α)}
    (h : p.attempt.RunsDuring store start finish outcome) :
    ∃ result, outcome = .ok result ∧ p.RunsDuring store start finish result := by
  induction p generalizing start with
  | done value =>
      cases h with
      | done value h => exact ⟨_, rfl, .done _ h⟩
  | fail e =>
      cases h with
      | done value h => exact ⟨_, rfl, .fail _ h⟩
  | request r rest ih =>
      cases h with
      | answer hNow hServes hRest =>
          obtain ⟨result, hResult, hRest⟩ := ih _ hRest
          exact ⟨result, hResult, .answer hNow hServes hRest⟩

/-- A call is performed at some instant of its run, or it fails. -/
theorem of_call {c : Storage.Call} {outcome : c.Answer}
    (h : (Program.call c).RunsDuring store start finish outcome) :
    (∃ now, start ≤ now ∧ now < finish ∧ outcome = (Memory.answer c (store now)).1) ∨
      Faulted outcome := by
  cases h with
  | @answer _ _ a _ now _ _ hNow hServes hRest =>
      have hOutcome : outcome = a := by
        cases a with
        | ok value => exact hRest.eq_ok_of_done
        | error e => exact hRest.eq_error_of_fail
      rw [hOutcome]
      rcases hServes.of_call with ⟨hAnswer, -⟩ | ⟨hFault, -⟩
      · exact .inl ⟨now, hNow, hRest.le, hAnswer⟩
      · exact .inr hFault

/-- What is found in a store that nothing gets lost from is found whatever else happens meanwhile,
unless a read fails. -/
theorem eq_of_finds {site : Site} {result outcome : Except Error α}
    (h : p.RunsDuring store start finish outcome)
    (hGrows : ∀ now, site.Grows (store now) (store (now + 1)))
    (hFinds : Finds site (store start) p result) :
    outcome = result ∨ Faulted outcome := by
  induction h with
  | done value _ =>
      cases hFinds
      exact .inl rfl
  | fail e _ =>
      cases hFinds
      exact .inl rfl
  | answer hNow hServes hRest ih =>
      rcases (hFinds.grows (Site.grows_of_le hGrows hNow)).step hServes with hNext | ⟨e, he, hEnd⟩
      · exact ih hNext
      · rw [hEnd] at hRest
        exact .inr ⟨e, hRest.eq_error_of_fail, he⟩

end Program.RunsDuring

/-! ### Answers that stay -/

/-- In the history of a store a program always ends so: alone at any instant, when it also leaves the
store as it is, and while others go on, unless one of its calls fails. -/
structure Program.AlwaysEnds {α : Type} (store : Nat → Memory) (p : Program α)
    (result : Except Error α) : Prop where
  alone : ∀ now, Yields Host.answer (fun host => host.store = .ofBackend (.memory (store now))) p
    result
  amid : ∀ start finish outcome, p.RunsDuring store start finish outcome →
    outcome = result ∨ Faulted outcome

namespace Program.AlwaysEnds

variable {α β : Type} {store : Nat → Memory} {p : Program α} {next : α → Program β}

/-- What is found at first is found always, since nothing gets lost. -/
theorem of_finds {site : Site} {result : Except Error α}
    (hGrows : ∀ now, site.Grows (store now) (store (now + 1)))
    (hFinds : Finds site (store 0) p result) : p.AlwaysEnds store result where
  alone now := (Host.shows site (store now)).yields_of_finds
    (hFinds.grows (Site.grows_of_le hGrows (Nat.zero_le now)))
  amid start _ _ hRuns := hRuns.eq_of_finds hGrows
    (hFinds.grows (Site.grows_of_le hGrows (Nat.zero_le start)))

theorem bind {value : α} {result : Except Error β} (h : p.AlwaysEnds store (.ok value))
    (hNext : (next value).AlwaysEnds store result) : (p.bind next).AlwaysEnds store result where
  alone now := (h.alone now).bind (hNext.alone now)
  amid _ _ outcome hRuns := by
    rcases hRuns.of_bind with ⟨found, _, hFirst, hRest⟩ | ⟨e, rfl, hFirst⟩
    · rcases h.amid _ _ _ hFirst with hFound | hFault
      · cases hFound
        exact hNext.amid _ _ _ hRest
      · exact absurd hFault not_faulted_ok
    · rcases h.amid _ _ _ hFirst with hNever | hFault
      · cases hNever
      · exact .inr hFault.of_error

end Program.AlwaysEnds

/-! ### Programs whose calls are performed -/

/-- The answer to a request is none with which the store fails a call. -/
def Request.Performed : (r : Request) → r.Answer → Prop
  | .call _, a => ¬ Faulted a
  | _, _ => True

/-- In the history of a store the program starts at one instant and has ended so at another, after it
made these exchanges in between. The store performed every call. -/
inductive Program.ServedDuring {α : Type} (store : Nat → Memory) :
    Program α → Nat → Nat → List Exchange → Except Error α → Prop
  | done {start finish : Nat} (value : α) (h : start ≤ finish) :
      ServedDuring store (.done value) start finish [] (.ok value)
  | fail {start finish : Nat} (e : Error) (h : start ≤ finish) :
      ServedDuring store (.fail e) start finish [] (.error e)
  | answer {r : Request} {next : r.Answer → Program α} {a : r.Answer} {start now finish : Nat}
      {trace : List Exchange} {outcome : Except Error α} (hNow : start ≤ now)
      (hServes : System.Serves (store now) r a (store (now + 1))) (hPerformed : r.Performed a)
      (hRest : ServedDuring store (next a) (now + 1) finish trace outcome) :
      ServedDuring store (.request r next) start finish (⟨r, a⟩ :: trace) outcome

/-- The terms on which a program is served: no call fails, and then the program ends with no such
failure either. -/
def serving : Terms :=
  ⟨Request.Performed, fun _ => True, fun e => e.isFault = false⟩

theorem lenient_serving : serving.Lenient where
  asks _ := trivial
  passes c e h := by
    simp only [serving, Request.Performed, Faulted, Except.error.injEq] at h ⊢
    simpa using h
  uninitialized := rfl

namespace Program.ServedDuring

variable {α β : Type} {store : Nat → Memory} {p : Program α} {next : α → Program β}
  {start finish : Nat} {trace : List Exchange}

theorem runsDuring {outcome : Except Error α} (h : p.ServedDuring store start finish trace outcome) :
    p.RunsDuring store start finish outcome := by
  induction h with
  | done value h => exact .done value h
  | fail e h => exact .fail e h
  | answer hNow hServes _ _ ih => exact .answer hNow hServes ih

theorem ran {outcome : Except Error α} (h : p.ServedDuring store start finish trace outcome) :
    p.Ran trace outcome := by
  induction h with
  | done value h => exact .done value
  | fail e h => exact .fail e
  | answer _ _ _ _ ih => exact .request ih

theorem from_earlier {earlier : Nat} {outcome : Except Error α}
    (h : p.ServedDuring store start finish trace outcome) (hEarlier : earlier ≤ start) :
    p.ServedDuring store earlier finish trace outcome := by
  cases h with
  | done value h => exact .done value (Nat.le_trans hEarlier h)
  | fail e h => exact .fail e (Nat.le_trans hEarlier h)
  | answer hNow hServes hPerformed hRest =>
      exact .answer (Nat.le_trans hEarlier hNow) hServes hPerformed hRest

/-- A sequence ends with the error of its first part, or it goes on with the value of that part. -/
theorem of_bind {outcome : Except Error β}
    (h : (p.bind next).ServedDuring store start finish trace outcome) :
    (∃ value middle before after, trace = before ++ after ∧
      p.ServedDuring store start middle before (.ok value) ∧
      (next value).ServedDuring store middle finish after outcome) ∨
    ∃ e, outcome = .error e ∧ p.ServedDuring store start finish trace (.error e) := by
  induction p generalizing start trace with
  | done value => exact .inl ⟨value, start, [], trace, rfl, .done value (Nat.le_refl start), h⟩
  | fail e =>
      cases h with
      | fail e h => exact .inr ⟨e, rfl, .fail e h⟩
  | request r rest ih =>
      cases h with
      | answer hNow hServes hPerformed hRest =>
          rcases ih _ hRest with ⟨value, middle, before, after, rfl, hFirst, hNext⟩ | ⟨e, rfl, hFirst⟩
          · exact .inl ⟨value, middle, _ :: before, after, rfl,
              .answer hNow hServes hPerformed hFirst, hNext⟩
          · exact .inr ⟨e, rfl, .answer hNow hServes hPerformed hFirst⟩

theorem of_attempt {outcome : Except Error (Except Error α)}
    (h : p.attempt.ServedDuring store start finish trace outcome) :
    ∃ result, outcome = .ok result ∧ p.ServedDuring store start finish trace result := by
  induction p generalizing start trace with
  | done value =>
      cases h with
      | done value h => exact ⟨_, rfl, .done _ h⟩
  | fail e =>
      cases h with
      | done value h => exact ⟨_, rfl, .fail _ h⟩
  | request r rest ih =>
      cases h with
      | answer hNow hServes hPerformed hRest =>
          obtain ⟨result, hResult, hRest⟩ := ih _ hRest
          exact ⟨result, hResult, .answer hNow hServes hPerformed hRest⟩

/-- A program that is served on these terms does not end as if a call had failed. -/
theorem not_faulted {post : α → Prop} {outcome : Except Error α}
    (h : p.ServedDuring store start finish trace outcome) (hKeeps : p.Keeps serving post) :
    ¬ Faulted outcome := by
  induction h with
  | done value _ => exact not_faulted_ok
  | fail e _ =>
      have hPlain : e.isFault = false := (keeps_fail e).mp hKeeps
      rintro ⟨_, ⟨⟩, hFault⟩
      rw [hPlain] at hFault
      cases hFault
  | answer _ _ hPerformed _ ih => exact ih (((keeps_request _ _).mp hKeeps).2 _ hPerformed)

/-- What is found in a store that nothing gets lost from is found whatever else happens meanwhile. -/
theorem eq_of_finds {site : Site} {result outcome : Except Error α}
    (h : p.ServedDuring store start finish trace outcome)
    (hGrows : ∀ now, site.Grows (store now) (store (now + 1)))
    (hFinds : Finds site (store start) p result) : outcome = result := by
  induction h with
  | done value _ =>
      cases hFinds
      rfl
  | fail e _ =>
      cases hFinds
      rfl
  | answer hNow hServes hPerformed _ ih =>
      cases hFinds with
      | get hKey hGet _ hNext =>
          have hThere := Site.grows_of_le hGrows hNow _ _ hKey hGet
          rcases hServes.of_call with ⟨hAnswer, -⟩ | ⟨hFault, -⟩
          · simp only [Memory.answer, hThere] at hAnswer
            rw [hAnswer] at ih
            exact ih (hNext.grows (Site.grows_of_le hGrows (Nat.le_succ_of_le hNow)))
          · exact absurd hFault hPerformed

end Program.ServedDuring

/-! ### Programs that only read -/

/-- Answers a request as a store does at an instant, and waits for the next one. -/
def Program.watch (store : Nat → Memory) : (r : Request) → Nat → r.Answer × Nat
  | .call c, now => ((Memory.answer c (store now)).1, now + 1)
  | .freshUuid, now => (⟨0⟩, now + 1)
  | .freshTransactionId, now => (⟨0⟩, now + 1)
  | .clock, now => (0, now + 1)
  | .record _, now => ((), now + 1)

/-- A call that is performed is not answered as if it had failed. -/
theorem Storage.Memory.not_faulted_answer (c : Storage.Call) (m : Memory) :
    ¬ Faulted (Memory.answer c m).1 := by
  cases c with
  | get key =>
      rw [Memory.answer]
      split
      · exact not_faulted_ok
      · rintro ⟨_, ⟨⟩, ⟨⟩⟩
  | put key blob mode =>
      rw [Memory.answer]
      split <;> exact not_faulted_ok
  | delete key => exact not_faulted_ok
  | list start => exact not_faulted_ok
  | head key => exact not_faulted_ok

theorem Request.performed_watch (store : Nat → Memory) (r : Request) (now : Nat) :
    r.Performed (Program.watch store r now).1 := by
  cases r with
  | call c => exact Memory.not_faulted_answer c (store now)
  | _ => trivial

/-- A program that only reads can run in any history: it takes every other instant and leaves those
in between to the others. -/
theorem Program.servedDuring_watch {α : Type} (store : Nat → Memory) {p : Program α}
    (hQuiet : p.Asks Request.Quiet) (start : Nat) :
    p.ServedDuring (fun now => store (now / 2)) (2 * start) (2 * (p.run (watch store) start).2)
      (p.exchanges (watch store) start) (p.run (watch store) start).1 := by
  induction p generalizing start with
  | done value => exact .done value (Nat.le_refl _)
  | fail e => exact .fail e (Nat.le_refl _)
  | request r next ih =>
      obtain ⟨hRequest, hNext⟩ := (asks_request r next).mp hQuiet
      have hHere : 2 * start / 2 = start := by omega
      have hStill : (2 * start + 1) / 2 = start := by omega
      have hServes : System.Serves (store (2 * start / 2)) r (watch store r start).1
          (store ((2 * start + 1) / 2)) := by
        rw [hHere, hStill]
        cases r with
        | call c =>
            have hPerformed := System.Serves.performed (m := store start) c
            rwa [Memory.answer_snd_of_not_write hRequest] at hPerformed
        | freshUuid => cases hRequest
        | freshTransactionId => exact .transactionId _
        | clock => exact .clock _
        | record measurement => exact .record _
      have hPerformed := r.performed_watch store start
      have hLater : (watch store r start).2 = start + 1 := by cases r <;> rfl
      rw [run, exchanges]
      generalize watch store r start = reply at hServes hPerformed hLater
      obtain ⟨a, _⟩ := reply
      obtain rfl := hLater
      exact .answer (Nat.le_refl _) hServes hPerformed
        ((ih a (hNext a) (start + 1)).from_earlier (by omega))

theorem Program.runsDuring_watch {α : Type} (store : Nat → Memory) {p : Program α}
    (hQuiet : p.Asks Request.Quiet) (start : Nat) :
    p.RunsDuring (fun now => store (now / 2)) (2 * start) (2 * (p.run (watch store) start).2)
      (p.run (watch store) start).1 :=
  (servedDuring_watch store hQuiet start).runsDuring

namespace System

variable {site : Site} {s : System} {published : List Publication}

/-- From a state on clients bring about this history of the store, with any number of steps between
one instant and the next. -/
def Unfolds (site : Site) (s : System) (store : Nat → Memory) : Prop :=
  ∃ states : Nat → System, states 0 = s ∧ (∀ now, Steps site (states now) (states (now + 1))) ∧
    ∀ now, (states now).store = store now

theorem Unfolds.store_zero {store : Nat → Memory} (h : s.Unfolds site store) : store 0 = s.store := by
  obtain ⟨states, rfl, -, hStore⟩ := h
  exact (hStore 0).symm

/-- What happens from one state to another is a history that comes to rest at once. -/
theorem unfolds_of_steps {s' : System} (h : Steps site s s') :
    s.Unfolds site fun now => if now = 0 then s.store else s'.store := by
  refine ⟨fun now => if now = 0 then s else s', rfl, fun now => ?_, fun now => ?_⟩
  · cases now with
    | zero => exact h
    | succ now => exact .refl
  · cases now <;> rfl

/-- Clients may take their time from each instant of a history to the next. -/
theorem Unfolds.slowed {store : Nat → Memory} (h : s.Unfolds site store) (pace : Nat) :
    s.Unfolds site fun now => store (now / pace) := by
  obtain ⟨states, hFirst, hSteps, hStore⟩ := h
  refine ⟨fun now => states (now / pace), ?_, ?_, ?_⟩
  · simpa using hFirst
  · intro now
    dsimp only
    rw [Nat.succ_div]
    split
    · exact hSteps _
    · exact .refl
  · intro now
    exact hStore _

/-- The invariant holds at every instant, and nothing but the hint is lost from one to the next. -/
theorem Sound.unfolds (hSound : s.Sound site published) {store : Nat → Memory}
    (hUnfolds : s.Unfolds site store) :
    (∀ now, site.Grows (store now) (store (now + 1))) ∧
      ∀ now, ∃ s' published', s'.Sound site published' ∧ Steps site s s' ∧ s'.store = store now := by
  obtain ⟨states, rfl, hSteps, hStore⟩ := hUnfolds
  have hSince (now : Nat) : Steps site (states 0) (states now) := by
    induction now with
    | zero => exact .refl
    | succ now ih => exact ih.trans (hSteps now)
  have hAt (now : Nat) : ∃ published', (states now).Sound site published' :=
    (hSound.steps (hSince now)).2.imp' _ fun _ h => h
  refine ⟨fun now => ?_, fun now => ?_⟩
  · obtain ⟨_, hNow⟩ := hAt now
    rw [← hStore, ← hStore]
    exact (hNow.steps (hSteps now)).1
  · obtain ⟨published', hNow⟩ := hAt now
    exact ⟨states now, published', hNow, hSince now, hStore now⟩

/-- While a client is busy, a step leaves what it is doing alone or answers its next request. -/
theorem Step.runs_of_busy {s' : System} (hStep : Step site s s') {client : Nat} {run : Run}
    (hRun : s.runs client = some run) (hBusy : s'.runs client ≠ none) :
    s'.runs client = some run ∨ ∃ (r : Request) (next : r.Answer → Program Reply) (a : r.Answer),
      run.rest = .request r next ∧ Serves s.store r a s'.store ∧
        s'.runs client = some ⟨run.operation, Run.drawnAfter run.drawn r a, next a⟩ := by
  have hOther {other : Nat} (next : Option Run) (h : client ≠ other) :
      (s.withRun other next).runs client = some run :=
    (Function.update_of_ne h ..).trans hRun
  cases hStep with
  | @start other op hIdle hKnown hFits =>
      refine .inl (hOther _ ?_)
      rintro rfl
      rw [hRun] at hIdle
      cases hIdle
  | @answer other op drawn r next a store hFound hServes =>
      by_cases hSame : client = other
      · subst hSame
        cases hRun.symm.trans hFound
        exact .inr ⟨r, next, a, rfl, hServes, Function.update_self ..⟩
      · exact .inl (hOther _ hSame)
  | @finish other found outcome hFound hOutcome =>
      by_cases hSame : client = other
      · subst hSame
        exact absurd (Function.update_self ..) hBusy
      · exact .inl (hOther _ hSame)

/-- What is left of an operation runs in the history of the store until it has come to its end,
whatever the other clients do. -/
theorem runsDuring_of_steps {states : Nat → System}
    (hSteps : ∀ now, Step site (states now) (states (now + 1)) ∨ states (now + 1) = states now)
    {client start length : Nat} {run last : Run} {outcome : Except Error Reply}
    (hBusy : ∀ later, later ≤ length → (states (start + later)).runs client ≠ none)
    (hRun : (states start).runs client = some run)
    (hLast : (states (start + length)).runs client = some last)
    (hOutcome : last.rest.outcome? = some outcome) :
    run.rest.RunsDuring (fun now => (states now).store) start (start + length) outcome := by
  induction length generalizing start run with
  | zero =>
      obtain rfl : run = last := Option.some.inj (hRun.symm.trans hLast)
      cases hRest : run.rest with
      | done value =>
          rw [hRest] at hOutcome
          cases hOutcome
          exact .done value (Nat.le_refl _)
      | fail e =>
          rw [hRest] at hOutcome
          cases hOutcome
          exact .fail e (Nat.le_refl _)
      | request r next =>
          rw [hRest] at hOutcome
          cases hOutcome
  | succ length ih =>
      have hNext : start + (length + 1) = start + 1 + length := by omega
      have hStill (later : Nat) (hLater : later ≤ length) :
          (states (start + 1 + later)).runs client ≠ none := by
        rw [show start + 1 + later = start + (later + 1) by omega]
        exact hBusy _ (Nat.succ_le_succ hLater)
      rw [hNext] at hLast ⊢
      have hGoesOn {run : Run} (hRun : (states (start + 1)).runs client = some run) :=
        ih hStill hRun hLast
      rcases hSteps start with hStep | hSame
      · rcases hStep.runs_of_busy hRun (hBusy 1 (by omega)) with
          hSame | ⟨r, next, a, hRest, hServes, hNow⟩
        · exact (hGoesOn hSame).from_earlier (Nat.le_succ start)
        · rw [hRest]
          exact .answer (Nat.le_refl start) hServes (hGoesOn hNow)
      · exact (hGoesOn (hSame ▸ hRun)).from_earlier (Nat.le_succ start)

end System

end SnapshotCatalog
