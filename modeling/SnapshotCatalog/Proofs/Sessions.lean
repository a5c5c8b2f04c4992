import SnapshotCatalog.Proofs.Alone
/-!
Sessions: the calls of one client, one after another, at a desk that has a store in memory and
supplies of identifiers and times. Between any two requests someone may tamper with the hint, and
its reads and writes may fail. Everything else is left alone.
-/
namespace SnapshotCatalog

open Storage (Memory Call)

/-- The identifiers and times that will be handed out, in their order. -/
structure Supply where
  uuid : Nat → Uuid
  transactionId : Nat → TransactionId
  time : Nat → Millis

/-- A store, and how much of each supply was handed out. -/
structure Desk where
  store : Memory
  uuids : Nat
  transactionIds : Nat
  times : Nat
  requests : Nat

def Desk.empty : Desk := ⟨.empty, 0, 0, 0, 0⟩

/-- What is done to the hint before a request: its object is left, removed or replaced, and its
reads and writes may fail. -/
structure Mischief where
  object : Option (Option Storage.Blob)
  readFault : Option Error
  writeFault : Option Error

namespace Mischief

def none : Mischief := ⟨.none, .none, .none⟩

def tamper (site : Site) (mischief : Mischief) (m : Memory) : Memory :=
  match mischief.object with
  | .none => m
  | some .none => m.erase (site.resolve Hint.path)
  | some (some blob) => m.insert (site.resolve Hint.path) blob

/-- The error of a call that is made to fail. -/
def fault? (site : Site) (mischief : Mischief) (c : Call) : Option Error :=
  if c.key = site.resolve Hint.path then
    if c.isWrite then mischief.writeFault else mischief.readFault
  else .none

end Mischief

namespace Desk

/-- The desk when a request comes in. -/
def disturb (site : Site) (mischief : Nat → Mischief) (d : Desk) : Desk :=
  { d with store := (mischief d.requests).tamper site d.store, requests := d.requests + 1 }

/-- Answers a call, unless it is made to fail. -/
def answerCall (fault : Option Error) (c : Call) (d : Desk) : c.Answer × Desk :=
  match fault with
  | some e => (.error e, d)
  | none =>
    let (reply, store) := Memory.answer c d.store
    (reply, { d with store })

/-- Answers a request, after the mischief that is due. -/
def answer (site : Site) (supply : Supply) (mischief : Nat → Mischief) (r : Request) (d : Desk) :
    r.Answer × Desk :=
  let disturbed := d.disturb site mischief
  match r with
  | .call c => disturbed.answerCall ((mischief d.requests).fault? site c) c
  | .freshUuid => (supply.uuid d.uuids, { disturbed with uuids := d.uuids + 1 })
  | .freshTransactionId =>
    (supply.transactionId d.transactionIds,
      { disturbed with transactionIds := d.transactionIds + 1 })
  | .clock => (supply.time d.times, { disturbed with times := d.times + 1 })
  | .record _ => ((), disturbed)

/-- Without mischief a call is answered by the store. -/
theorem answer_call_undisturbed (site : Site) (supply : Supply) (c : Call) (d : Desk) :
    answer site supply (fun _ => .none) (.call c) d =
      ((Memory.answer c d.store).1,
        { d with store := (Memory.answer c d.store).2, requests := d.requests + 1 }) := by
  have hFault : Mischief.none.fault? site c = none := by
    rw [Mischief.fault?]
    split
    · split <;> rfl
    · rfl
  rw [answer, hFault]
  rfl

/-- Without mischief a desk answers as its store does. -/
theorem answersFrom (site : Site) (supply : Supply) :
    AnswersFrom Desk.store (answer site supply fun _ => .none) := by
  intro r d
  cases r with
  | call c =>
      rw [answer_call_undisturbed]
      exact .performed c
  | freshUuid => exact .uuid _
  | freshTransactionId => exact .transactionId _
  | clock => exact .clock _
  | record measurement => exact .record measurement

end Desk

/-- The operation on the transactions that its names stand for, if they stand for any. -/
def Operation.on {τ υ : Type} (find : τ → Option υ) : Operation τ → Option (Operation υ)
  | .create d => some (.create d)
  | .begin isolation => some (.begin isolation)
  | .beginAtVersion version isolation => some (.beginAtVersion version isolation)
  | .query t q => (find t).map fun t => .query t q
  | .change t c => (find t).map fun t => .change t c
  | .commit t => (find t).map fun t => .commit t
  | .latestVersion => some .latestVersion
  | .rootForVersion version => some (.rootForVersion version)
  | .rootBefore time => some (.rootBefore time)
  | .history polls => some (.history polls)
  | .verify => some .verify

namespace Operation

variable {τ υ : Type} {op : Operation τ} {found : Operation υ}

theorem encoding?_on {find : τ → Option υ} (h : op.on find = some found) :
    found.encoding? = op.encoding? := by
  cases op with
  | query name q =>
      obtain ⟨_, -, rfl⟩ := Option.map_eq_some_iff.mp h
      rfl
  | change name c =>
      obtain ⟨_, -, rfl⟩ := Option.map_eq_some_iff.mp h
      rfl
  | commit name =>
      obtain ⟨_, -, rfl⟩ := Option.map_eq_some_iff.mp h
      rfl
  | _ => cases h; rfl

theorem fits_on {find : τ → Option υ} (h : op.on find = some found) (hFits : op.Fits) :
    found.Fits :=
  fun data hData => hFits data ((encoding?_on h).symm.trans hData)

theorem exists_of_about?_on {find : τ → Option υ} (h : op.on find = some found) {t : υ}
    (hAbout : found.about? = some t) : ∃ name, find name = some t := by
  cases op with
  | query name q =>
      obtain ⟨_, hFind, rfl⟩ := Option.map_eq_some_iff.mp h
      cases hAbout
      exact ⟨name, hFind⟩
  | change name c =>
      obtain ⟨_, hFind, rfl⟩ := Option.map_eq_some_iff.mp h
      cases hAbout
      exact ⟨name, hFind⟩
  | commit name =>
      obtain ⟨_, hFind, rfl⟩ := Option.map_eq_some_iff.mp h
      cases hAbout
      exact ⟨name, hFind⟩
  | _ => cases h; cases hAbout

theorem mem_of_about?_on {op : Operation Nat} {held : List υ} (h : op.on (held[·]?) = some found)
    {t : υ} (hAbout : found.about? = some t) : t ∈ held := by
  obtain ⟨i, hi⟩ := exists_of_about?_on h hAbout
  exact List.mem_of_getElem? hi

theorem encoding?_map (f : τ → υ) (op : Operation τ) : (op.map f).encoding? = op.encoding? := by
  cases op <;> rfl

/-- An operation on a transaction is one on whatever stands for that transaction. -/
theorem exists_map_eq {f : τ → υ} {p : τ → Prop} {op : Operation υ}
    (h : ∀ t, op.about? = some t → ∃ name, p name ∧ f name = t) :
    ∃ named : Operation τ, named.map f = op ∧ ∀ name, named.about? = some name → p name := by
  cases op with
  | query t q =>
      obtain ⟨name, hName, rfl⟩ := h t rfl
      exact ⟨.query name q, rfl, fun _ hAbout => by cases hAbout; exact hName⟩
  | change t c =>
      obtain ⟨name, hName, rfl⟩ := h t rfl
      exact ⟨.change name c, rfl, fun _ hAbout => by cases hAbout; exact hName⟩
  | commit t =>
      obtain ⟨name, hName, rfl⟩ := h t rfl
      exact ⟨.commit name, rfl, fun _ hAbout => by cases hAbout; exact hName⟩
  | create d => exact ⟨.create d, rfl, fun _ hAbout => nomatch hAbout⟩
  | begin isolation => exact ⟨.begin isolation, rfl, fun _ hAbout => nomatch hAbout⟩
  | beginAtVersion version isolation =>
      exact ⟨.beginAtVersion version isolation, rfl, fun _ hAbout => nomatch hAbout⟩
  | latestVersion => exact ⟨.latestVersion, rfl, fun _ hAbout => nomatch hAbout⟩
  | rootForVersion version => exact ⟨.rootForVersion version, rfl, fun _ hAbout => nomatch hAbout⟩
  | rootBefore time => exact ⟨.rootBefore time, rfl, fun _ hAbout => nomatch hAbout⟩
  | history polls => exact ⟨.history polls, rfl, fun _ hAbout => nomatch hAbout⟩
  | verify => exact ⟨.verify, rfl, fun _ hAbout => nomatch hAbout⟩

end Operation

/-- The transaction that an operation delivered, if it delivered one. -/
def Reply.delivered : Except Error Reply → List Transaction
  | .ok (.transaction t) => [t]
  | _ => []

/-- The calls of a session. A transaction is named by its place among those delivered before. -/
abbrev Session := List (Operation Nat)

/-- Makes the calls of a session, with the transactions that were delivered so far. A call on a
transaction that was never delivered is not made and has no answer. -/
def Session.run {σ : Type} (site : Site) (answer : (r : Request) → σ → r.Answer × σ) :
    Session → List Transaction → σ → List (Option (Except Error Reply)) × σ
  | [], _, w => ([], w)
  | op :: rest, held, w =>
    match op.on (held[·]?) with
    | none =>
      let (answers, w) := run site answer rest held w
      (none :: answers, w)
    | some op =>
      let (outcome, w) := (op.program site).run answer w
      let (answers, w) := run site answer rest (held ++ Reply.delivered outcome) w
      (some outcome :: answers, w)

/-- The transactions that were delivered when a session is over. -/
def Session.held {σ : Type} (site : Site) (answer : (r : Request) → σ → r.Answer × σ) :
    Session → List Transaction → σ → List Transaction
  | [], held, _ => held
  | op :: rest, held, w =>
    match op.on (held[·]?) with
    | none => Session.held site answer rest held w
    | some op =>
      let (outcome, w) := (op.program site).run answer w
      Session.held site answer rest (held ++ Reply.delivered outcome) w

/-- A session that goes on does so with the transactions and the state that the first part left. -/
theorem Session.snd_run_append {σ : Type} (site : Site)
    (answer : (r : Request) → σ → r.Answer × σ) (session more : Session) (held : List Transaction)
    (w : σ) :
    (run site answer (session ++ more) held w).2 =
      (run site answer more (Session.held site answer session held w)
        (run site answer session held w).2).2 := by
  induction session generalizing held w with
  | nil => rfl
  | cons op rest ih =>
      rw [List.cons_append, run, Session.held, run]
      cases op.on (held[·]?) with
      | none => exact ih held w
      | some found => exact ih _ _

/-- A system in which one client has made the calls of a session and no other has done anything
since. -/
structure System.Attends (site : Site) (s : System) (client : Nat) (m : Memory)
    (held : List Transaction) : Prop where
  reachable : Reachable site s
  store : s.store = m
  idle : s.runs client = none
  handles : ∀ t ∈ held, ∃ h ∈ s.handles, h.transaction = t

theorem System.attends_initial (site : Site) (client : Nat) : initial.Attends site client .empty [] :=
  ⟨.refl, rfl, rfl, fun _ hMem => nomatch hMem⟩

section Attends

variable {σ : Type} {memory : σ → Memory} {answer : (r : Request) → σ → r.Answer × σ} {site : Site}
  {s : System} {client : Nat} {held : List Transaction} {w : σ}

/-- The client can make one more call. -/
theorem System.Attends.call (hAnswers : AnswersFrom memory answer) (op : Operation Transaction)
    (h : s.Attends site client (memory w) held) (hHeld : ∀ t, op.about? = some t → t ∈ held)
    (hFits : op.Fits) :
    ∃ s' : System, System.Steps site s s' ∧
      s'.Attends site client (memory ((op.program site).run answer w).2)
        (held ++ Reply.delivered ((op.program site).run answer w).1) := by
  obtain ⟨op, rfl, hKnown⟩ : ∃ named : Operation Handle, named.map Handle.transaction = op ∧
      ∀ h, named.about? = some h → h ∈ s.handles :=
    Operation.exists_map_eq fun t hAbout => h.handles t (hHeld t hAbout)
  have hFits : op.Fits := fun data hData =>
    hFits data ((Operation.encoding?_map _ op).trans hData)
  obtain ⟨s', hSteps, hStore, hIdle, hHandles, hDelivered⟩ :=
    System.steps_operation hAnswers h.idle hKnown hFits h.store
  refine ⟨s', hSteps, h.reachable.trans hSteps, hStore, hIdle, fun t hMem => ?_⟩
  rcases List.mem_append.mp hMem with hMem | hMem
  · obtain ⟨handle, hHandle, hSame⟩ := h.handles t hMem
    exact ⟨handle, hHandles handle hHandle, hSame⟩
  · apply hDelivered t
    generalize (((op.map Handle.transaction).program site).run answer w).1 = outcome at hMem
    cases outcome with
    | error e => cases hMem
    | ok reply =>
        cases reply with
        | transaction delivered => rw [List.mem_singleton.mp hMem]
        | _ => cases hMem

/-- The client can make the calls of a session. -/
theorem System.Attends.session (hAnswers : AnswersFrom memory answer) (session : Session)
    (h : s.Attends site client (memory w) held) (hFits : ∀ op ∈ session, op.Fits) :
    ∃ s', System.Steps site s s' ∧
      System.Attends site s' client (memory (session.run site answer held w).2)
        (session.held site answer held w) := by
  induction session generalizing s held w with
  | nil => exact ⟨s, .refl, h⟩
  | cons op rest ih =>
      have hRest : ∀ op ∈ rest, op.Fits := fun op hMem => hFits op (List.mem_cons_of_mem _ hMem)
      rw [Session.run, Session.held]
      cases hFound : op.on (held[·]?) with
      | none => exact ih h hRest
      | some found =>
          have hFoundFits := Operation.fits_on hFound (hFits op (List.mem_cons_self ..))
          obtain ⟨middle, hCall, hNext⟩ :=
            h.call hAnswers found (fun t => Operation.mem_of_about?_on hFound) hFoundFits
          obtain ⟨s', hSteps, hLast⟩ := ih hNext hRest
          exact ⟨s', hCall.trans hSteps, hLast⟩

end Attends

/-- Identifiers that count up, at a time that stands still. -/
def Supply.counting (time : Millis) : Supply :=
  ⟨fun n => ⟨BitVec.ofNat 128 n⟩, fun n => ⟨BitVec.ofNat 128 n⟩, fun _ => time⟩

/-- A lakehouse is created, and a namespace is added to it. -/
def Session.sample : Session :=
  [.create .standard, .begin .snapshot, .change 0 (.createNamespace "ns" .blank), .commit 1]

namespace Session

/-- The desk after the sample session. -/
def afterSample : Desk :=
  (run .top (Desk.answer .top (.counting 5) fun _ => .none) sample [] .empty).2

theorem fits_sample : ∀ op ∈ sample, op.Fits := by decide +kernel

/-- What a session brings about is a state that clients can bring about, and from there on they can
bring about what the session does when it goes on. -/
theorem exists_steps (site : Site) (supply : Supply) (session more : Session)
    (hFits : ∀ op ∈ session ++ more, op.Fits) :
    ∃ s s', System.Reachable site s ∧ System.Steps site s s' ∧
      s.store = (session.run site (Desk.answer site supply fun _ => .none) [] .empty).2.store ∧
      s'.store =
        ((session ++ more).run site (Desk.answer site supply fun _ => .none) [] .empty).2.store := by
  have hAnswers := Desk.answersFrom site supply
  have hStart : System.initial.Attends site 0 Desk.empty.store [] := System.attends_initial site 0
  obtain ⟨s, -, hFirst⟩ := hStart.session hAnswers session
    fun op hMem => hFits op (List.mem_append_left more hMem)
  obtain ⟨s', hSteps, hLast⟩ := hFirst.session hAnswers more
    fun op hMem => hFits op (List.mem_append_right session hMem)
  refine ⟨s, s', hFirst.reachable, hSteps, hFirst.store, ?_⟩
  rw [snd_run_append]
  exact hLast.store

theorem exists_reachable (site : Site) (supply : Supply) (session : Session)
    (hFits : ∀ op ∈ session, op.Fits) : ∃ s, System.Reachable site s ∧
      s.store = (session.run site (Desk.answer site supply fun _ => .none) [] .empty).2.store := by
  obtain ⟨s, _, hReach, -, hStore, -⟩ :=
    exists_steps site supply session [] ((List.append_nil session).symm ▸ hFits)
  exact ⟨s, hReach, hStore⟩

theorem exists_reachable_afterSample :
    ∃ s, System.Reachable .top s ∧ s.store = afterSample.store := by
  rw [afterSample]
  exact exists_reachable .top (.counting 5) sample fits_sample

/-- The sample session publishes version 1 and nothing after it. -/
theorem roots_afterSample :
    afterSample.store.contains (Site.top.resolve (RootPath.ofVersion 1)) = true ∧
      afterSample.store.contains (Site.top.resolve (RootPath.ofVersion 2)) = false := by
  decide +kernel

theorem contains_afterSample :
    afterSample.store.contains (Site.top.resolve (RootPath.ofVersion 1)) = true :=
  roots_afterSample.1

end Session

end SnapshotCatalog
