import SnapshotCatalog.Proofs.Alone
/-!
What a run exchanges with the outside: its requests and the answers to them, in their order. The
exchanges of a sequence are those of its parts, so what a whole operation may exchange is read off
its program. Only exchanges that wrote or deleted change the store, and they change it in one place
each.
-/
namespace SnapshotCatalog

open Storage (Memory)

/-- A request and the answer to it. -/
structure Exchange where
  request : Request
  answer : request.Answer

namespace Program

variable {α β σ : Type} {p : Program α} {next : α → Program β} {trace : List Exchange}

/-- The program makes these exchanges and then ends so. -/
inductive Ran : Program α → List Exchange → Except Error α → Prop
  | done (value : α) : Ran (.done value) [] (.ok value)
  | fail (e : Error) : Ran (.fail e) [] (.error e)
  | request {r : Request} {next : r.Answer → Program α} {a : r.Answer} {trace : List Exchange}
      {outcome : Except Error α} (h : Ran (next a) trace outcome) :
      Ran (.request r next) (⟨r, a⟩ :: trace) outcome

/-- The program makes these exchanges, and this remains of it. -/
inductive LeadsTo (p : Program α) : List Exchange → Program α → Prop
  | start : LeadsTo p [] p
  | answer {r : Request} {next : r.Answer → Program α} {a : r.Answer} {trace : List Exchange}
      (h : LeadsTo p trace (.request r next)) : LeadsTo p (trace ++ [⟨r, a⟩]) (next a)

/-- What was exchanged up to some point and from there on is what was exchanged in all. -/
theorem LeadsTo.ran {rest : Program α} {more : List Exchange} {outcome : Except Error α}
    (h : p.LeadsTo trace rest) (hRest : rest.Ran more outcome) : p.Ran (trace ++ more) outcome := by
  induction h generalizing more with
  | start => exact hRest
  | @answer r next a trace h ih =>
      rw [List.append_assoc]
      exact ih (.request hRest)

theorem ran_of_outcome? {outcome : Except Error α} (h : p.outcome? = some outcome) :
    p.Ran [] outcome := by
  cases p with
  | done value =>
      cases h
      exact .done value
  | fail e =>
      cases h
      exact .fail e
  | request r next => cases h

/-- The exchanges of a run against whoever answers. -/
def exchanges (answer : (r : Request) → σ → r.Answer × σ) : Program α → σ → List Exchange
  | .done _, _ => []
  | .fail _, _ => []
  | .request r next, s => ⟨r, (answer r s).1⟩ :: (next (answer r s).1).exchanges answer (answer r s).2

/-- A sequence exchanges what its first part does, and then what follows the value of that part. -/
theorem exchanges_bind {answer : (r : Request) → σ → r.Answer × σ} {s : σ} {value : α}
    (h : (p.run answer s).1 = .ok value) : (p.bind next).exchanges answer s =
      p.exchanges answer s ++ (next value).exchanges answer (p.run answer s).2 := by
  induction p generalizing s with
  | done found =>
      cases h
      rfl
  | fail e => cases h
  | request r rest ih => exact congrArg (_ :: ·) (ih _ h)

theorem ran_exchanges (answer : (r : Request) → σ → r.Answer × σ) (p : Program α) (s : σ) :
    p.Ran (p.exchanges answer s) (p.run answer s).1 := by
  induction p generalizing s with
  | done value => exact .done value
  | fail e => exact .fail e
  | request r next ih => exact .request (ih _ _)

namespace Ran

theorem of_done {value : α} {outcome : Except Error α}
    (h : (Program.done value).Ran trace outcome) : trace = [] ∧ outcome = .ok value := by
  cases h
  exact ⟨rfl, rfl⟩

theorem of_fail {e : Error} {outcome : Except Error α}
    (h : (Program.fail e : Program α).Ran trace outcome) : trace = [] ∧ outcome = .error e := by
  cases h
  exact ⟨rfl, rfl⟩

theorem of_ofExcept {e outcome : Except Error α} (h : (ofExcept e).Ran trace outcome) :
    trace = [] ∧ outcome = e := by
  cases e with
  | ok value => exact h.of_done
  | error e => exact h.of_fail

/-- A sequence ends with the error of its first part, or it goes on with the value of that part. -/
theorem of_bind {outcome : Except Error β} (h : (p.bind next).Ran trace outcome) :
    (∃ value before after, trace = before ++ after ∧ p.Ran before (.ok value) ∧
      (next value).Ran after outcome) ∨
    ∃ e, outcome = .error e ∧ p.Ran trace (.error e) := by
  induction p generalizing trace with
  | done value => exact .inl ⟨value, [], trace, rfl, .done value, h⟩
  | fail e =>
      obtain ⟨rfl, rfl⟩ := h.of_fail
      exact .inr ⟨e, rfl, .fail e⟩
  | request r rest ih =>
      cases h with
      | request hRest =>
          rcases ih _ hRest with ⟨value, before, after, rfl, hFirst, hNext⟩ | ⟨e, rfl, hFirst⟩
          · exact .inl ⟨value, _ :: before, after, rfl, .request hFirst, hNext⟩
          · exact .inr ⟨e, rfl, .request hFirst⟩

theorem of_attempt {outcome : Except Error (Except Error α)} (h : p.attempt.Ran trace outcome) :
    ∃ result, outcome = .ok result ∧ p.Ran trace result := by
  induction p generalizing trace with
  | done value =>
      obtain ⟨rfl, rfl⟩ := of_done h
      exact ⟨_, rfl, .done value⟩
  | fail e =>
      obtain ⟨rfl, rfl⟩ := of_done h
      exact ⟨_, rfl, .fail e⟩
  | request r next ih =>
      cases h with
      | request hRest =>
          obtain ⟨result, hResult, hRest⟩ := ih _ hRest
          exact ⟨result, hResult, .request hRest⟩

/-- A call ends as it was answered. -/
theorem of_call {c : Storage.Call} {outcome : c.Answer} (h : (call c).Ran trace outcome) :
    trace = [⟨.call c, outcome⟩] := by
  cases h with
  | @request _ _ a _ _ hRest =>
      obtain ⟨rfl, hOutcome⟩ := of_ofExcept hRest
      rw [hOutcome]

theorem of_record {measurement : Measurement} {outcome : Except Error Unit}
    (h : (record measurement).Ran trace outcome) :
    trace = [⟨.record measurement, ()⟩] ∧ outcome = .ok () := by
  cases h with
  | @request _ _ a _ _ hRest =>
      obtain ⟨rfl, rfl⟩ := hRest.of_done
      exact ⟨rfl, rfl⟩

/-! What comes first in a sequence is taken off its exchanges. -/

theorem of_ofExcept_bind {e : Except Error α} {outcome : Except Error β}
    (h : ((ofExcept e).bind next).Ran trace outcome) :
    (∃ value, e = .ok value ∧ (next value).Ran trace outcome) ∨
      ∃ error, e = .error error ∧ trace = [] ∧ outcome = .error error := by
  cases e with
  | ok value => exact .inl ⟨value, rfl, h⟩
  | error error =>
      obtain ⟨rfl, rfl⟩ := of_fail h
      exact .inr ⟨error, rfl, rfl, rfl⟩

theorem of_call_bind {c : Storage.Call} {next : c.Value → Program β} {outcome : Except Error β}
    (h : ((call c).bind next).Ran trace outcome) : ∃ answer rest, trace = ⟨.call c, answer⟩ :: rest ∧
      ((∃ value, answer = .ok value ∧ (next value).Ran rest outcome) ∨
        ∃ e, answer = .error e ∧ rest = [] ∧ outcome = .error e) := by
  cases h with
  | request hRest =>
      exact ⟨_, _, rfl, of_ofExcept_bind hRest⟩

theorem of_freshUuid_bind {next : Uuid → Program β} {outcome : Except Error β}
    (h : (freshUuid.bind next).Ran trace outcome) :
    ∃ id rest, trace = ⟨.freshUuid, id⟩ :: rest ∧ (next id).Ran rest outcome := by
  cases h with
  | request hRest => exact ⟨_, _, rfl, hRest⟩

theorem of_clock_bind {next : Millis → Program β} {outcome : Except Error β}
    (h : (clock.bind next).Ran trace outcome) :
    ∃ time rest, trace = ⟨.clock, time⟩ :: rest ∧ (next time).Ran rest outcome := by
  cases h with
  | request hRest => exact ⟨_, _, rfl, hRest⟩

theorem of_record_bind {measurement : Measurement} {next : Unit → Program β}
    {outcome : Except Error β} (h : ((record measurement).bind next).Ran trace outcome) :
    ∃ rest, trace = ⟨.record measurement, ()⟩ :: rest ∧ (next ()).Ran rest outcome := by
  cases h with
  | request hRest => exact ⟨_, rfl, hRest⟩

/-- A program whose value is only made into another one exchanges the same. -/
theorem of_map {f : α → β} {outcome : Except Error β}
    (h : (p.bind fun value => .done (f value)).Ran trace outcome) :
    ∃ result, p.Ran trace result ∧ outcome = result.map f := by
  rcases h.of_bind with ⟨value, before, after, rfl, hFirst, hNext⟩ | ⟨e, rfl, hFirst⟩
  · obtain ⟨rfl, rfl⟩ := hNext.of_done
    exact ⟨.ok value, by rwa [List.append_nil], rfl⟩
  · exact ⟨.error e, hFirst, rfl⟩

theorem of_replying {reply : α → Reply} {outcome : Except Error Reply}
    (h : (p.replying reply).Ran trace outcome) :
    ∃ result, p.Ran trace result ∧ outcome = result.map reply :=
  of_map h

/-- Every request among the exchanges is of the kind that the program asks. -/
theorem of_asks {kind : Request → Prop} {outcome : Except Error α} (h : p.Ran trace outcome)
    (hAsks : p.Asks kind) : ∀ x ∈ trace, kind x.request := by
  induction h with
  | done value => exact fun x hMem => nomatch hMem
  | fail e => exact fun x hMem => nomatch hMem
  | request hRest ih =>
      obtain ⟨hRequest, hNext⟩ := (asks_request _ _).mp hAsks
      intro x hMem
      rcases List.mem_cons.mp hMem with rfl | hMem
      · exact hRequest
      · exact ih (hNext _) x hMem

end Ran

end Program

/-! ### What exchanges do to a store -/

/-- A change of one object: it is there with this content now, or it is gone. -/
structure Storage.Alteration where
  key : String
  content : Option Storage.Blob

/-- The store with one object changed. -/
def Storage.Memory.alter (m : Memory) (change : Storage.Alteration) : Memory :=
  match change.content with
  | some blob => m.insert change.key blob
  | none => m.erase change.key

namespace Exchange

/-- What an exchange changed in the store, if it changed something. -/
def alteration? : Exchange → Option Storage.Alteration
  | ⟨.call (.put key blob _), .ok .written⟩ => some ⟨key, some blob⟩
  | ⟨.call (.delete key), .ok ()⟩ => some ⟨key, none⟩
  | _ => none

/-- What exchanges changed in the store, in their order. -/
def alterations (trace : List Exchange) : List Storage.Alteration := trace.filterMap alteration?

@[simp] theorem alterations_nil : alterations [] = [] := rfl

@[simp] theorem alterations_append (before after : List Exchange) :
    alterations (before ++ after) = alterations before ++ alterations after :=
  List.filterMap_append

@[simp] theorem alterations_cons (x : Exchange) (rest : List Exchange) :
    alterations (x :: rest) = x.alteration?.toList ++ alterations rest := by
  rw [alterations, List.filterMap_cons]
  cases x.alteration? <;> rfl

@[simp] theorem alteration?_error (c : Storage.Call) (e : Error) :
    alteration? ⟨.call c, .error e⟩ = none := by
  cases c <;> rfl

theorem alteration?_of_quiet {x : Exchange} (h : x.request.Quiet) : x.alteration? = none := by
  obtain ⟨r, a⟩ := x
  cases r with
  | call c =>
      cases c with
      | put key blob mode => cases h
      | delete key => cases h
      | _ => rfl
  | _ => rfl

/-- Exchanges that only read or ask for other things change nothing. -/
theorem alterations_of_quiet {trace : List Exchange} (h : ∀ x ∈ trace, x.request.Quiet) :
    alterations trace = [] :=
  List.filterMap_eq_nil_iff.mpr fun x hMem => alteration?_of_quiet (h x hMem)

end Exchange

/-- What is left of a program can come to an end without changing anything. -/
theorem Program.exists_ran_unaltered {α : Type} (p : Program α) :
    ∃ trace outcome, p.Ran trace outcome ∧ Exchange.alterations trace = [] := by
  have hAnswer (r : Request) : ∃ a, Exchange.alteration? ⟨r, a⟩ = none := by
    cases r with
    | call c => exact ⟨.error (.internal ""), Exchange.alteration?_error c _⟩
    | freshUuid => exact ⟨⟨0⟩, rfl⟩
    | freshTransactionId => exact ⟨⟨0⟩, rfl⟩
    | clock => exact ⟨(0 : Millis), rfl⟩
    | record measurement => exact ⟨(), rfl⟩
  induction p with
  | done value => exact ⟨[], _, .done value, rfl⟩
  | fail e => exact ⟨[], _, .fail e, rfl⟩
  | request r next ih =>
      obtain ⟨a, hNone⟩ := hAnswer r
      obtain ⟨trace, outcome, hRan, hRest⟩ := ih a
      refine ⟨⟨r, a⟩ :: trace, outcome, .request hRan, ?_⟩
      rw [Exchange.alterations_cons, hNone, hRest]
      rfl

namespace System

variable {m m' m'' : Memory}

/-- The exchanges were answered one after another, each as the store may, and this is the store
afterwards. -/
inductive ServesAll : Memory → List Exchange → Memory → Prop
  | nil (m : Memory) : ServesAll m [] m
  | cons {m m' m'' : Memory} {x : Exchange} {rest : List Exchange}
      (h : Serves m x.request x.answer m') (hRest : ServesAll m' rest m'') :
      ServesAll m (x :: rest) m''

/-- An answered request changes the store as its exchange says. -/
theorem Serves.store_eq {r : Request} {a : r.Answer} (h : Serves m r a m') :
    m' = (Exchange.mk r a).alteration?.toList.foldl Memory.alter m := by
  cases h with
  | performed c =>
      cases c with
      | get key =>
          rw [Memory.answer_get_snd]
          rfl
      | put key blob mode =>
          rw [Memory.answer]
          split <;> rfl
      | delete key => rfl
      | list start => rfl
      | head key => rfl
  | failed c e hFault => rw [Exchange.alteration?_error]; rfl
  | uuid id => rfl
  | transactionId id => rfl
  | clock time => rfl
  | record measurement => rfl

/-- Answered requests change the store as their exchanges say, and in no other way. -/
theorem ServesAll.store_eq {trace : List Exchange} (h : ServesAll m trace m') :
    m' = (Exchange.alterations trace).foldl Memory.alter m := by
  induction h with
  | nil m => rfl
  | cons hServes _ ih =>
      rw [Exchange.alterations_cons, List.foldl_append, ← hServes.store_eq]
      exact ih

theorem ServesAll.of_append {before after : List Exchange} (h : ServesAll m (before ++ after) m'') :
    ∃ m', ServesAll m before m' ∧ ServesAll m' after m'' := by
  induction before generalizing m with
  | nil => exact ⟨m, .nil m, h⟩
  | cons x rest ih =>
      cases h with
      | cons hServes hRest =>
          obtain ⟨m', hBefore, hAfter⟩ := ih hRest
          exact ⟨m', .cons hServes hBefore, hAfter⟩

/-- The exchanges of a run are answered as the store may that is somewhere in the state of who
answers. -/
theorem servesAll_exchanges {α σ : Type} {memory : σ → Memory}
    {answer : (r : Request) → σ → r.Answer × σ} (hAnswers : AnswersFrom memory answer)
    (p : Program α) (w : σ) :
    ServesAll (memory w) (p.exchanges answer w) (memory (p.run answer w).2) := by
  induction p generalizing w with
  | done value => exact .nil _
  | fail e => exact .nil _
  | request r next ih => exact .cons (hAnswers r w) (ih _ _)

end System

end SnapshotCatalog
