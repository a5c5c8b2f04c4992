import SnapshotCatalog.Program
/-!
What can be said about a program whoever answers it. A contract names the answers that a program may
get, what it then asks, and how it then ends. Contracts hold of a sequence when they hold of its
parts, and what remains of a program after some answers keeps the contract of the whole.
-/
namespace SnapshotCatalog

/-- The answers that a program may get, what it may ask then, and the errors it may end with. -/
structure Terms where
  answers : (r : Request) → r.Answer → Prop
  asks : Request → Prop
  fails : Error → Prop

namespace Program

variable {α β : Type}

@[simp] theorem bind_eq (p : Program α) (next : α → Program β) : p >>= next = p.bind next := rfl

@[simp] theorem ofExcept_ok (value : α) : ofExcept (.ok value) = done value := rfl

@[simp] theorem ofExcept_error (e : Error) : (ofExcept (.error e) : Program α) = fail e := rfl

theorem run_call {σ : Type} (answer : (r : Request) → σ → r.Answer × σ) (c : Storage.Call) (s : σ) :
    (call c).run answer s = answer (.call c) s := by
  show (ofExcept (answer (.call c) s).1).run answer (answer (.call c) s).2 = _
  generalize answer (.call c) s = reply
  obtain ⟨outcome, s'⟩ := reply
  cases outcome <;> rfl

/-- As long as the answers are as agreed, the program asks only what it may, and it ends with a
value as promised or with an error that it may end with. -/
def Keeps (terms : Terms) (post : α → Prop) : Program α → Prop
  | .done value => post value
  | .fail error => terms.fails error
  | .request r next =>
    terms.asks r ∧ ∀ answer, terms.answers r answer → (next answer).Keeps terms post

section Keeps

variable {terms other : Terms} {post : α → Prop}

@[simp] theorem keeps_done (value : α) : (done value).Keeps terms post ↔ post value := .rfl

@[simp] theorem keeps_fail (e : Error) :
    (fail e : Program α).Keeps terms post ↔ terms.fails e := .rfl

@[simp] theorem keeps_request (r : Request) (next : r.Answer → Program α) :
    (request r next).Keeps terms post ↔
      terms.asks r ∧ ∀ answer, terms.answers r answer → (next answer).Keeps terms post := .rfl

@[simp] theorem keeps_bind (p : Program α) (next : α → Program β) (post : β → Prop) :
    (p.bind next).Keeps terms post ↔ p.Keeps terms fun value => (next value).Keeps terms post := by
  induction p with
  | done value => rfl
  | fail error => rfl
  | request r rest ih => simp only [request_bind, keeps_request, ih]

theorem Keeps.done {value : α} (h : post value) : (done value).Keeps terms post := h

theorem Keeps.fail {e : Error} (h : terms.fails e) : (fail e : Program α).Keeps terms post := h

theorem Keeps.request {r : Request} {next : r.Answer → Program α} (h : terms.asks r)
    (hNext : ∀ answer, terms.answers r answer → (next answer).Keeps terms post) :
    (request r next).Keeps terms post :=
  ⟨h, hNext⟩

theorem keeps_ofExcept (e : Except Error α) :
    (ofExcept e).Keeps terms post ↔
      (∀ value, e = .ok value → post value) ∧ ∀ error, e = .error error → terms.fails error := by
  cases e with
  | ok value => simp
  | error error => simp

/-- A contract with fewer answers, or with more that may be asked and end, is kept as well. -/
theorem Keeps.mono {promised : α → Prop} {p : Program α} (h : p.Keeps terms post)
    (hAnswers : ∀ r answer, other.answers r answer → terms.answers r answer)
    (hAsks : ∀ r, terms.asks r → other.asks r) (hFails : ∀ e, terms.fails e → other.fails e)
    (hPost : ∀ value, post value → promised value) : p.Keeps other promised := by
  induction p with
  | done value => exact hPost value h
  | fail error => exact hFails error h
  | request r rest ih =>
      exact ⟨hAsks r h.1, fun answer hAnswer => ih answer (h.2 answer (hAnswers r answer hAnswer))⟩

theorem Keeps.weaken {promised : α → Prop} {p : Program α} (h : p.Keeps terms post)
    (hPost : ∀ value, post value → promised value) : p.Keeps terms promised :=
  h.mono (fun _ _ => id) (fun _ => id) (fun _ => id) hPost

theorem Keeps.attempt {post : Except Error α → Prop} {p : Program α}
    (h : p.Keeps ⟨terms.answers, terms.asks, fun e => post (.error e)⟩ fun value => post (.ok value)) :
    p.attempt.Keeps terms post := by
  induction p with
  | done value => exact h
  | fail error => exact h
  | request r rest ih => exact ⟨h.1, fun answer hAnswer => ih answer (h.2 answer hAnswer)⟩

end Keeps

/-- Whatever is answered, every request of the program is of this kind. -/
def Asks (kind : Request → Prop) : Program α → Prop
  | .done _ => True
  | .fail _ => True
  | .request r next => kind r ∧ ∀ answer, (next answer).Asks kind

section Asks

variable {kind other : Request → Prop}

@[simp] theorem asks_done (value : α) : (done value).Asks kind := trivial

@[simp] theorem asks_fail (e : Error) : (fail e : Program α).Asks kind := trivial

@[simp] theorem asks_request (r : Request) (next : r.Answer → Program α) :
    (request r next).Asks kind ↔ kind r ∧ ∀ answer, (next answer).Asks kind := .rfl

@[simp] theorem asks_ofExcept (e : Except Error α) : (ofExcept e).Asks kind := by
  cases e with
  | ok value => trivial
  | error error => trivial

theorem Asks.bind {p : Program α} {next : α → Program β} (h : p.Asks kind)
    (hNext : ∀ value, (next value).Asks kind) : (p.bind next).Asks kind := by
  induction p with
  | done value => exact hNext value
  | fail error => trivial
  | request r rest ih => exact ⟨h.1, fun answer => ih answer (h.2 answer)⟩

theorem Asks.attempt {p : Program α} (h : p.Asks kind) : p.attempt.Asks kind := by
  induction p with
  | done value => trivial
  | fail error => trivial
  | request r rest ih => exact ⟨h.1, fun answer => ih answer (h.2 answer)⟩

theorem Asks.request {r : Request} {next : r.Answer → Program α} (h : kind r)
    (hNext : ∀ answer, (next answer).Asks kind) : (request r next).Asks kind :=
  ⟨h, hNext⟩

theorem asks_call (c : Storage.Call) : (call c).Asks kind ↔ kind (.call c) :=
  ⟨fun h => h.1, fun h => ⟨h, fun answer => asks_ofExcept answer⟩⟩

/-- A contract that leaves open what is asked is narrowed to what the program asks anyway. -/
theorem Keeps.of_asks {answers : (r : Request) → r.Answer → Prop} {fails : Error → Prop}
    {post : α → Prop} {p : Program α} (h : p.Keeps ⟨answers, fun _ => True, fails⟩ post)
    (hAsks : p.Asks kind) : p.Keeps ⟨answers, kind, fails⟩ post := by
  induction p with
  | done value => exact h
  | fail error => exact h
  | request r rest ih =>
      exact ⟨hAsks.1, fun answer hAnswer => ih answer (h.2 answer hAnswer) (hAsks.2 answer)⟩

/-- A program that asks only what it may, and may end with any error, keeps the terms. -/
theorem Asks.keeps {terms : Terms} {p : Program α} (h : p.Asks terms.asks)
    (hFails : ∀ e, terms.fails e) : p.Keeps terms fun _ => True := by
  induction p with
  | done value => trivial
  | fail error => exact hFails error
  | request r rest ih => exact ⟨h.1, fun answer _ => ih answer (h.2 answer)⟩

/-- Of the first part of a sequence it is enough to know what it asks, when any error may end it. -/
theorem Asks.keeps_bind {terms : Terms} {post : β → Prop} {p : Program α} {next : α → Program β}
    (h : p.Asks terms.asks) (hFails : ∀ e, terms.fails e)
    (hNext : ∀ value, (next value).Keeps terms post) : (p.bind next).Keeps terms post :=
  (Program.keeps_bind _ _ _).mpr ((h.keeps hFails).weaken fun value _ => hNext value)

/-- A contract that promises nothing of the answers tells what is asked. -/
theorem Keeps.asks {p : Program α} {fails : Error → Prop} {post : α → Prop}
    (h : p.Keeps ⟨fun _ _ => True, kind, fails⟩ post) : p.Asks kind := by
  induction p with
  | done value => trivial
  | fail error => trivial
  | request r rest ih => exact ⟨h.1, fun answer => ih answer (h.2 answer trivial)⟩

end Asks

/-- Whatever is answered, this is true at every request, of the request and of what follows it. -/
def Everywhere (P : (r : Request) → (r.Answer → Program α) → Prop) : Program α → Prop
  | .done _ => True
  | .fail _ => True
  | .request r next => P r next ∧ ∀ answer, (next answer).Everywhere P

section Everywhere

variable {P : (r : Request) → (r.Answer → Program α) → Prop}

theorem everywhere_request (r : Request) (next : r.Answer → Program α) :
    (request r next).Everywhere P ↔ P r next ∧ ∀ answer, (next answer).Everywhere P := .rfl

theorem everywhere_done (value : α) : (done value).Everywhere P := trivial

theorem everywhere_fail (e : Error) : (fail e : Program α).Everywhere P := trivial

end Everywhere

/-- How many identifiers a request draws. -/
def draws : Request → Nat
  | .freshUuid => 1
  | _ => 0

/-- Whatever is answered, the program draws at most so many identifiers. -/
def Draws : Program α → Nat → Prop
  | .done _, _ => True
  | .fail _, _ => True
  | .request r next, limit => draws r ≤ limit ∧ ∀ answer, (next answer).Draws (limit - draws r)

section Draws

theorem draws_request_iff (r : Request) (next : r.Answer → Program α) (limit : Nat) :
    (request r next).Draws limit ↔
      draws r ≤ limit ∧ ∀ answer, (next answer).Draws (limit - draws r) := .rfl

theorem draws_request {r : Request} {next : r.Answer → Program α} {limit : Nat}
    (h : draws r ≤ limit) (hNext : ∀ answer, (next answer).Draws (limit - draws r)) :
    (request r next).Draws limit :=
  ⟨h, hNext⟩

theorem Draws.mono {p : Program α} {limit more : Nat} (h : p.Draws limit) (hMore : limit ≤ more) :
    p.Draws more := by
  induction p generalizing limit more with
  | done value => trivial
  | fail error => trivial
  | request r next ih =>
      exact ⟨Nat.le_trans h.1 hMore, fun answer => ih answer (h.2 answer) (Nat.sub_le_sub_right hMore _)⟩

theorem Draws.bind {p : Program α} {next : α → Program β} {first rest : Nat} (h : p.Draws first)
    (hNext : ∀ value, (next value).Draws rest) : (p.bind next).Draws (first + rest) := by
  induction p generalizing first with
  | done value => exact (hNext value).mono (Nat.le_add_left rest first)
  | fail error => trivial
  | request r next ih =>
      refine ⟨Nat.le_add_right_of_le h.1, fun answer => ?_⟩
      rw [Nat.sub_add_comm h.1]
      exact ih answer (h.2 answer)

theorem Asks.draws {p : Program α} (h : p.Asks fun r => r ≠ .freshUuid) : p.Draws 0 := by
  induction p with
  | done value => trivial
  | fail error => trivial
  | request r next ih =>
      cases r with
      | freshUuid => exact absurd rfl h.1
      | call c => exact ⟨Nat.le_refl 0, fun answer => ih answer (h.2 answer)⟩
      | freshTransactionId => exact ⟨Nat.le_refl 0, fun answer => ih answer (h.2 answer)⟩
      | clock => exact ⟨Nat.le_refl 0, fun answer => ih answer (h.2 answer)⟩
      | record m => exact ⟨Nat.le_refl 0, fun answer => ih answer (h.2 answer)⟩

end Draws

attribute [irreducible] Keeps Asks Draws Everywhere

/-- From a program to what remains of it after answers that were given. -/
inductive Reaches (answers : (r : Request) → r.Answer → Prop) (p : Program α) : Program α → Prop
  | start : Reaches answers p p
  | answer {r : Request} {next : r.Answer → Program α} {a : r.Answer} :
      Reaches answers p (request r next) → answers r a → Reaches answers p (next a)

namespace Reaches

variable {answers other : (r : Request) → r.Answer → Prop} {p rest : Program α}

/-- What remains of a program keeps the contract of the whole. -/
theorem keeps {asks : Request → Prop} {fails : Error → Prop} {post : α → Prop}
    (h : Reaches answers p rest) (hKeeps : p.Keeps ⟨answers, asks, fails⟩ post) :
    rest.Keeps ⟨answers, asks, fails⟩ post := by
  induction h with
  | start => exact hKeeps
  | answer _ hAnswer ih => exact ((keeps_request _ _).mp ih).2 _ hAnswer

theorem mono (h : Reaches answers p rest) (hAnswers : ∀ r a, answers r a → other r a) :
    Reaches other p rest := by
  induction h with
  | start => exact .start
  | answer _ hAnswer ih => exact .answer ih (hAnswers _ _ hAnswer)

end Reaches

end Program

end SnapshotCatalog
