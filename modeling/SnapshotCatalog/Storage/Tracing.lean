import SnapshotCatalog.Storage.Memory
/-!
A store in memory that keeps a log of its calls and can be told to refuse some. A refused call
changes nothing and does not reach the log. An object can be replaced behind the log's back.
-/
namespace SnapshotCatalog.Storage

/-- Which calls a refusal concerns. -/
inductive Scope where
  | all
  | writes
  deriving DecidableEq, Repr

/-- A call as the log shows it. -/
inductive Operation where
  | get (key : String)
  | head (key : String)
  | put (key : String) (size : Nat) (mode : WriteMode)
  | delete (key : String)
  | list (start : String)
  deriving DecidableEq, Repr

/-- The key or beginning of keys that an operation touched. -/
def Operation.key : Operation → String
  | .get key => key
  | .head key => key
  | .put key _ _ => key
  | .delete key => key
  | .list start => start

def Operation.ofCall : Call → Operation
  | .get key => .get key
  | .put key blob mode => .put key blob.size mode
  | .delete key => .delete key
  | .list start => .list start
  | .head key => .head key

/-- The objects, the log, and the beginnings of keys whose calls are refused. -/
structure Tracing where
  objects : Memory
  log : List Operation
  refusals : List (String × Scope)

namespace Tracing

def empty : Tracing := ⟨.empty, [], []⟩

/-- Whether a call is refused. -/
def refuses (t : Tracing) (c : Call) : Bool :=
  t.refusals.any fun (start, scope) =>
    Text.startsWith c.key start && (scope == .all || c.isWrite)

/-- The error of a refused call. -/
def refusal (c : Call) : Error :=
  if c.isWrite then .storageWrite (.injected c.key) none
  else .storageRead (.injected c.key) none

/-- Answers a call that is not refused. A listing looks at every key. -/
def perform : (c : Call) → Memory → c.Answer × Memory
  | .list start, m => (.ok ((m.withStart start).map Memory.metaOf), m)
  | .get key, m => Memory.answer (.get key) m
  | .put key blob mode, m => Memory.answer (.put key blob mode) m
  | .delete key, m => Memory.answer (.delete key) m
  | .head key, m => Memory.answer (.head key) m

/-- Answers a call. -/
def answer (c : Call) (t : Tracing) : c.Answer × Tracing :=
  if t.refuses c then (.error (refusal c), t)
  else
    let (reply, objects) := perform c t.objects
    (reply, { t with objects, log := t.log ++ [.ofCall c] })

/-- Refuses every call whose key begins so. -/
def injectFailure (t : Tracing) (start : String) : Tracing :=
  { t with refusals := t.refusals ++ [(start, .all)] }

/-- Refuses the writes whose key begins so. -/
def injectWriteFailure (t : Tracing) (start : String) : Tracing :=
  { t with refusals := t.refusals ++ [(start, .writes)] }

def clearFailures (t : Tracing) : Tracing := { t with refusals := [] }

def clearLog (t : Tracing) : Tracing := { t with log := [] }

/-- Replaces an object without a trace in the log. -/
def tamper (t : Tracing) (key : String) (blob : Blob) : Tracing :=
  { t with objects := t.objects.insert key blob }

/-- How many logged operations satisfy a condition. -/
def count (t : Tracing) (p : Operation → Bool) : Nat := t.log.countP p

def isHead : Operation → Bool
  | .head _ => true
  | _ => false

/-- How many existence probes the log shows at keys that satisfy a condition. -/
def headCount (t : Tracing) (p : String → Bool) : Nat :=
  t.count fun op => isHead op && p op.key

def isPut : Operation → Bool
  | .put .. => true
  | _ => false

/-- How many writes to a key the log shows. -/
def putCount (t : Tracing) (key : String) : Nat := t.count fun op => isPut op && op.key == key

end Tracing

end SnapshotCatalog.Storage
