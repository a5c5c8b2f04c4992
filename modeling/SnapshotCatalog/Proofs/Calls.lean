import SnapshotCatalog.Proofs.Exchanges
/-!
The calls of all clients, as the log tells them. A call begins when its client was last idle and ends
when its operation does, and what it exchanged in between are the events of its client. So the log
gives for every ended call a run of its program, with the exchanges that it made.
-/
namespace SnapshotCatalog

open Storage (Memory)
open Program

/-- The exchanges of the operation that a client has under way, after one more event. -/
def Event.extend (client : Nat) (before : List Exchange) : Event → List Exchange
  | .answered other _ r a => if other = client then before ++ [⟨r, a⟩] else before
  | .ended other _ _ => if other = client then [] else before

/-- The exchanges of the operation that a client has under way. -/
def exchanged (client : Nat) (log : List Event) : List Exchange :=
  log.foldl (Event.extend client) []

/-- A call that has ended. -/
structure EndedCall where
  client : Nat
  operation : Operation Handle
  exchanges : List Exchange
  outcome : Except Error Reply

/-- The call that an event ended, if it ended one. -/
def Event.call? (before : List Event) : Event → Option EndedCall
  | .answered .. => none
  | .ended client op outcome => some ⟨client, op, exchanged client before, outcome⟩

/-- The calls that ended in a log, after the events of another one. -/
def callsAfter (before : List Event) : List Event → List EndedCall
  | [] => []
  | event :: rest => (event.call? before).toList ++ callsAfter (before ++ [event]) rest

/-- The calls that have ended, in the order in which they ended. -/
def System.calls (s : System) : List EndedCall := callsAfter [] s.log

theorem exchanged_append (client : Nat) (log : List Event) (event : Event) :
    exchanged client (log ++ [event]) = event.extend client (exchanged client log) := by
  rw [exchanged, List.foldl_append]
  rfl

theorem callsAfter_append (before log : List Event) (event : Event) :
    callsAfter before (log ++ [event]) =
      callsAfter before log ++ (event.call? (before ++ log)).toList := by
  induction log generalizing before with
  | nil => simp only [List.nil_append, List.append_nil, callsAfter]
  | cons first rest ih =>
      rw [List.cons_append, callsAfter, callsAfter, ih, List.append_assoc, List.append_assoc,
        List.singleton_append]

/-- Every call that ended left an event, and every such event ended a call. -/
theorem mem_ended_iff {client : Nat} {op : Operation Handle} {outcome : Except Error Reply}
    (before log : List Event) : Event.ended client op outcome ∈ log ↔
      ∃ call ∈ callsAfter before log,
        call.client = client ∧ call.operation = op ∧ call.outcome = outcome := by
  induction log generalizing before with
  | nil => simp [callsAfter]
  | cons event rest ih =>
      rw [List.mem_cons, ih (before ++ [event]), callsAfter]
      simp only [List.mem_append, Option.mem_toList, or_and_right, exists_or]
      refine or_congr_left ?_
      cases event with
      | answered other op' r a => simp [Event.call?]
      | ended other op' outcome' =>
          constructor
          · rintro ⟨⟩
            exact ⟨_, rfl, rfl, rfl, rfl⟩
          · rintro ⟨_, ⟨⟩, rfl, rfl, rfl⟩
            rfl

/-- The exchanges of a client after one more answer, for that client and for any other. -/
theorem exchanged_answered (client other : Nat) (log : List Event) (op : Operation Handle)
    (r : Request) (a : r.Answer) : exchanged other (log ++ [.answered client op r a]) =
      if other = client then exchanged client log ++ [⟨r, a⟩] else exchanged other log := by
  rw [exchanged_append]
  by_cases hSame : other = client
  · subst hSame
    rw [if_pos rfl]
    exact if_pos rfl
  · rw [if_neg hSame]
    exact if_neg (Ne.symm hSame)

/-- The same after the end of its operation. -/
theorem exchanged_ended (client other : Nat) (log : List Event) (op : Operation Handle)
    (outcome : Except Error Reply) : exchanged other (log ++ [.ended client op outcome]) =
      if other = client then [] else exchanged other log := by
  rw [exchanged_append]
  by_cases hSame : other = client
  · subst hSame
    rw [if_pos rfl]
    exact if_pos rfl
  · rw [if_neg hSame]
    exact if_neg (Ne.symm hSame)

/-- An exchange happened during an operation of a client. -/
def Exchange.In (log : List Event) (client : Nat) (op : Operation Handle) (x : Exchange) : Prop :=
  .answered client op x.request x.answer ∈ log

namespace System

variable {site : Site} {s s' : System}

/-- What the log tells of a client: an idle one has exchanged nothing since its last call, and the
exchanges of any other are those of its operation so far. -/
def Underway (site : Site) (log : List Event) (client : Nat) : Option Run → Prop
  | none => exchanged client log = []
  | some run =>
    ((run.operation.map Handle.transaction).program site).LeadsTo (exchanged client log) run.rest ∧
      ∀ x ∈ exchanged client log, x.In log client run.operation

/-- What the log tells of all clients and of the calls that have ended. -/
structure Followed (site : Site) (s : System) : Prop where
  clients : ∀ client, Underway site s.log client (s.runs client)
  calls : ∀ call ∈ s.calls,
    ((call.operation.map Handle.transaction).program site).Ran call.exchanges call.outcome ∧
      ∀ x ∈ call.exchanges, x.In s.log call.client call.operation

theorem Underway.later {log log' : List Event} {client : Nat} {run : Option Run}
    (h : Underway site log client run) (hSame : exchanged client log' = exchanged client log)
    (hLog : ∀ event ∈ log, event ∈ log') : Underway site log' client run := by
  cases run with
  | none => exact hSame.trans h
  | some run =>
      refine ⟨hSame ▸ h.1, fun x hMem => ?_⟩
      rw [hSame] at hMem
      exact hLog _ (h.2 x hMem)

section Calls

variable (s : System) (client : Nat) (op : Operation Handle) (store : Memory) (handles : List Handle)
  (runs : Nat → Option Run)

/-- An answer ends no call. -/
theorem calls_answered (r : Request) (a : r.Answer) :
    System.calls ⟨store, handles, runs, s.log ++ [.answered client op r a]⟩ = s.calls :=
  (callsAfter_append [] s.log _).trans (List.append_nil _)

/-- The end of an operation makes a call of what its client exchanged. -/
theorem calls_ended (outcome : Except Error Reply) :
    System.calls ⟨store, handles, runs, s.log ++ [.ended client op outcome]⟩ =
      s.calls ++ [⟨client, op, exchanged client s.log, outcome⟩] :=
  callsAfter_append [] s.log _

end Calls

theorem Followed.step (h : s.Followed site) (hStep : Step site s s') : s'.Followed site := by
  cases hStep with
  | @start client op hIdle hKnown hFits =>
      refine ⟨fun other => ?_, h.calls⟩
      by_cases hSame : other = client
      · subst hSame
        have hNone := h.clients other
        rw [hIdle] at hNone
        show Underway site s.log other (Function.update s.runs other _ other)
        rw [Function.update_self]
        refine ⟨?_, fun x hMem => ?_⟩
        · rw [show exchanged other s.log = [] from hNone]
          exact .start
        · rw [show exchanged other s.log = [] from hNone] at hMem
          cases hMem
      · show Underway site s.log other (Function.update s.runs client _ other)
        rw [Function.update_of_ne hSame]
        exact h.clients other
  | @answer client op drawn r next a store hRun hServes =>
      have hLog : ∀ event ∈ s.log, event ∈ s.log ++ [.answered client op r a] :=
        fun _ => List.mem_append_left _
      refine ⟨fun other => ?_, fun call hMem => ?_⟩
      · by_cases hSame : other = client
        · subst hSame
          have hUnderway := h.clients other
          rw [hRun] at hUnderway
          show Underway site (s.log ++ [_]) other (Function.update s.runs other _ other)
          rw [Function.update_self]
          show LeadsTo _ (exchanged other (s.log ++ [_])) _ ∧ ∀ x ∈ exchanged other (s.log ++ [_]), _
          rw [exchanged_answered, if_pos rfl]
          refine ⟨hUnderway.1.answer, List.forall_mem_append.mpr ⟨fun x hMem => ?_, fun x hMem => ?_⟩⟩
          · exact hLog _ (hUnderway.2 x hMem)
          · rw [List.mem_singleton.mp hMem]
            exact List.mem_append_right _ (List.mem_singleton_self _)
        · show Underway site (s.log ++ [_]) other (Function.update s.runs client _ other)
          rw [Function.update_of_ne hSame]
          refine (h.clients other).later ?_ hLog
          rw [exchanged_answered, if_neg hSame]
      · rw [calls_answered] at hMem
        obtain ⟨hRan, hIn⟩ := h.calls call hMem
        exact ⟨hRan, fun x hMem => hLog _ (hIn x hMem)⟩
  | @finish client run outcome hRun hOutcome =>
      have hLog : ∀ event ∈ s.log, event ∈ s.log ++ [.ended client run.operation outcome] :=
        fun _ => List.mem_append_left _
      refine ⟨fun other => ?_, fun call hMem => ?_⟩
      · by_cases hSame : other = client
        · subst hSame
          show Underway site (s.log ++ [_]) other (Function.update s.runs other _ other)
          rw [Function.update_self]
          show exchanged other (s.log ++ [_]) = []
          rw [exchanged_ended, if_pos rfl]
        · show Underway site (s.log ++ [_]) other (Function.update s.runs client _ other)
          rw [Function.update_of_ne hSame]
          refine (h.clients other).later ?_ hLog
          rw [exchanged_ended, if_neg hSame]
      · rw [calls_ended] at hMem
        rcases List.mem_append.mp hMem with hOld | hNew
        · obtain ⟨hRan, hIn⟩ := h.calls call hOld
          exact ⟨hRan, fun x hMem => hLog _ (hIn x hMem)⟩
        · -- What the client has exchanged up to its end is the whole call.
          cases List.mem_singleton.mp hNew
          have hUnderway := h.clients client
          rw [hRun] at hUnderway
          refine ⟨?_, fun x hMem => hLog _ (hUnderway.2 x hMem)⟩
          have hRan := hUnderway.1.ran (ran_of_outcome? hOutcome)
          rwa [List.append_nil] at hRan

/-- In every state that clients can bring about, the log tells the runs of all calls. -/
theorem Reachable.followed (hReach : Reachable site s) : s.Followed site := by
  induction hReach with
  | refl => exact ⟨fun _ => rfl, fun _ hMem => nomatch hMem⟩
  | tail _ hStep ih => exact ih.step hStep

/-! ### What was created stays -/

/-- What a creation in the log wrote is stored, unless it was the hint. -/
def Kept (site : Site) (s : System) : Prop :=
  ∀ client op key blob, key ≠ site.resolve Hint.path →
    .answered client op (.call (.put key blob .createNew)) (.ok .written) ∈ s.log →
      s.store.get? key = some blob

theorem Reachable.kept (hReach : Reachable site s) : s.Kept site := by
  induction hReach with
  | refl => exact fun _ _ _ _ _ hMem => nomatch hMem
  | tail hBefore hStep ih =>
      obtain ⟨published, hSound⟩ := Reachable.sound hBefore
      have hGrows := (hSound.step hStep).1
      cases hStep with
      | start hIdle hKnown hFits => exact ih
      | finish hRun hOutcome =>
          intro client op key blob hKey hMem
          rcases List.mem_append.mp hMem with hMem | hMem
          · exact ih client op key blob hKey hMem
          · cases List.mem_singleton.mp hMem
      | answer hRun hServes =>
          intro client op key blob hKey hMem
          rcases List.mem_append.mp hMem with hMem | hMem
          · exact hGrows key blob hKey (ih client op key blob hKey hMem)
          · cases List.mem_singleton.mp hMem
            have hStore := hServes.store_eq
            dsimp only
            rw [hStore]
            exact TextMap.get?_insert_self _ key blob

end System

end SnapshotCatalog
