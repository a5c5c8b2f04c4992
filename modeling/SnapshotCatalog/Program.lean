import SnapshotCatalog.Storage.Call
import SnapshotCatalog.Measurement
import SnapshotCatalog.Root
import SnapshotCatalog.Uuid
/-!
Operations of the catalog as adaptive programs. A program reaches outside through requests: calls
to the store, fresh identifiers, the clock, and measurements it wants recorded. Nothing is assumed
about who answers, so the clients of one store may be paused between any two requests, and a call
may fail. The main statements are the laws of sequencing and how a run passes through it.
-/
namespace SnapshotCatalog

/-- One request to the outside. -/
inductive Request where
  | call (c : Storage.Call)
  | freshUuid
  | freshTransactionId
  | clock
  | record (m : Measurement)

/-- What a request may answer. -/
@[reducible] def Request.Answer : Request → Type
  | .call c => c.Answer
  | .freshUuid => Uuid
  | .freshTransactionId => TransactionId
  | .clock => Millis
  | .record _ => Unit

/-- A program ends with a value, ends with an error, or goes on with the answer to a request. -/
inductive Program (α : Type) where
  | done (value : α)
  | fail (error : Error)
  | request (r : Request) (next : r.Answer → Program α)

namespace Program

variable {α β γ σ : Type}

/-- Goes on with the value of a program. An error ends both. -/
def bind : Program α → (α → Program β) → Program β
  | .done value, next => next value
  | .fail error, _ => .fail error
  | .request r rest, next => .request r fun answer => (rest answer).bind next

instance : Monad Program where
  pure := .done
  bind := bind

@[simp] theorem done_bind (value : α) (next : α → Program β) :
    (done value).bind next = next value := rfl

@[simp] theorem fail_bind (error : Error) (next : α → Program β) :
    (fail error : Program α).bind next = fail error := rfl

@[simp] theorem request_bind (r : Request) (rest : r.Answer → Program α) (next : α → Program β) :
    (request r rest).bind next = request r fun answer => (rest answer).bind next := rfl

theorem bind_assoc (p : Program α) (first : α → Program β) (second : β → Program γ) :
    (p.bind first).bind second = p.bind fun value => (first value).bind second := by
  induction p with
  | done value => rfl
  | fail error => rfl
  | request r rest ih => simp [ih]

/-- Ends with a value or an error that is known already. -/
def ofExcept : Except Error α → Program α
  | .ok value => .done value
  | .error error => .fail error

/-- Turns how a program ends into a value, so that an error does not end what follows. -/
def attempt : Program α → Program (Except Error α)
  | .done value => .done (.ok value)
  | .fail error => .done (.error error)
  | .request r rest => .request r fun answer => (rest answer).attempt

/-- One call to the store. A call that fails ends the program. -/
def call (c : Storage.Call) : Program c.Value := .request (.call c) ofExcept

def freshUuid : Program Uuid := .request .freshUuid .done

def freshTransactionId : Program TransactionId := .request .freshTransactionId .done

/-- The present time. -/
def clock : Program Millis := .request .clock .done

def record (m : Measurement) : Program Unit := .request (.record m) .done

/-- Runs a program to its end against whoever answers its requests. -/
def run (answer : (r : Request) → σ → r.Answer × σ) : Program α → σ → Except Error α × σ
  | .done value, s => (.ok value, s)
  | .fail error, s => (.error error, s)
  | .request r rest, s =>
    let (reply, s) := answer r s
    (rest reply).run answer s

/-- A run of a sequence is a run of its first part and, if that ends with a value, of the rest. -/
theorem run_bind (answer : (r : Request) → σ → r.Answer × σ) (p : Program α)
    (next : α → Program β) (s : σ) :
    (p.bind next).run answer s =
      match p.run answer s with
      | (.ok value, s) => (next value).run answer s
      | (.error error, s) => (.error error, s) := by
  induction p generalizing s with
  | done value => rfl
  | fail error => rfl
  | request r rest ih => exact ih _ _

/-- A run of an attempt has the same effects and ends with a value. -/
theorem run_attempt (answer : (r : Request) → σ → r.Answer × σ) (p : Program α) (s : σ) :
    p.attempt.run answer s = (.ok (p.run answer s).1, (p.run answer s).2) := by
  induction p generalizing s with
  | done value => rfl
  | fail error => rfl
  | request r rest ih => exact ih _ _

end Program

end SnapshotCatalog
