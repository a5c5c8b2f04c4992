import Mathlib.Logic.Function.Basic
import Mathlib.Logic.Relation
import SnapshotCatalog.Proofs.Operations
/-!
Any number of clients at one store. Each client runs one operation after another, and between two
requests of an operation any other client may go on. The store performs calls one at a time; any
call may instead fail without effect, and identifiers, clocks and transaction ids are whatever they
turn out to be. Transactions are values, so every transaction that was ever handed out may be used
again, by any client and any number of times.
-/
namespace SnapshotCatalog

/-- The errors of a store that did not perform a call. -/
def Error.isFault : Error → Bool
  | .storageRead _ _ => true
  | .storageWrite _ _ => true
  | .internal _ => true
  | _ => false

/-- How a program has ended, if it has. -/
def Program.outcome? {α : Type} : Program α → Option (Except Error α)
  | .done value => some (.ok value)
  | .fail error => some (.error error)
  | .request _ _ => none

/-- The version whose root lies at a key of the store. -/
def Site.versionAt? (site : Site) (key : String) : Option Version :=
  (Text.after? site.keyStart key).bind RootPath.version?

/-- A transaction that was handed out, with the mutations that led to it from the root at which it
began. -/
structure Handle where
  transaction : Transaction
  past : List Mutation

/-- The mutations that led to the transaction that an operation delivers, when it drew this
identifier or none. -/
def Operation.past (op : Operation Handle) (drawn : Option Uuid) : List Mutation :=
  match op with
  | .change h c => h.past ++ [⟨c, drawn⟩]
  | _ => []

/-- An operation under way: the identifier that it drew last, and what remains to be done. -/
structure Run where
  operation : Operation Handle
  drawn : Option Uuid
  rest : Program Reply

namespace Run

/-- An operation before its first request. -/
def start (site : Site) (op : Operation Handle) : Run :=
  ⟨op, none, (op.map Handle.transaction).program site⟩

/-- The identifier that was drawn last, after one more answer. -/
def drawnAfter (drawn : Option Uuid) : (r : Request) → r.Answer → Option Uuid
  | .freshUuid, id => some id
  | _, _ => drawn

/-- The transaction that an ended operation hands out, if it hands out one. -/
def handout (run : Run) : Except Error Reply → List Handle
  | .ok (.transaction t) => [⟨t, run.operation.past run.drawn⟩]
  | _ => []

end Run

/-- What happened at a client, in the order in which it happened to all of them. -/
inductive Event where
  | answered (client : Nat) (operation : Operation Handle) (r : Request) (answer : r.Answer)
  | ended (client : Nat) (operation : Operation Handle) (outcome : Except Error Reply)

/-- The version that an event published, and by what operation: a root that was created. -/
def Event.published? (site : Site) : Event → Option (Version × Operation Handle)
  | .answered _ op (.call (.put key _ .createNew)) (.ok .written) =>
    (site.versionAt? key).map fun version => (version, op)
  | _ => none

/-- A store, the transactions that were handed out, what each client is doing, and what happened. -/
structure System where
  store : Storage.Memory
  handles : List Handle
  runs : Nat → Option Run
  log : List Event

namespace System

/-- An empty store and clients that have done nothing. -/
def initial : System := ⟨.empty, [], fun _ => none, []⟩

/-- The published versions in the order in which their roots were created. -/
def published (site : Site) (s : System) : List (Version × Operation Handle) :=
  s.log.filterMap (Event.published? site)

/-- How a request may be answered, and the store after it. -/
inductive Serves (m : Storage.Memory) : (r : Request) → r.Answer → Storage.Memory → Prop
  | performed (c : Storage.Call) :
      Serves m (.call c) (Storage.Memory.answer c m).1 (Storage.Memory.answer c m).2
  | failed (c : Storage.Call) (e : Error) (h : e.isFault = true) :
      Serves m (.call c) (.error e) m
  | uuid (id : Uuid) : Serves m .freshUuid id m
  | transactionId (id : TransactionId) : Serves m .freshTransactionId id m
  | clock (time : Millis) : Serves m .clock time m
  | record (measurement : Measurement) : Serves m (.record measurement) () m

/-- The system after a client has gone on. -/
def withRun (s : System) (client : Nat) (run : Option Run) : System :=
  { s with runs := Function.update s.runs client run }

/-- One step of one client: an idle client starts an operation on transactions that were handed
out, a request is answered, or an operation that has come to its end is over. -/
inductive Step (site : Site) (s : System) : System → Prop
  | start {client : Nat} {op : Operation Handle} (hIdle : s.runs client = none)
      (hKnown : ∀ h, op.about? = some h → h ∈ s.handles) (hFits : op.Fits) :
      Step site s (s.withRun client (some (.start site op)))
  | answer {client : Nat} {op : Operation Handle} {drawn : Option Uuid} {r : Request}
      {next : r.Answer → Program Reply} {a : r.Answer} {store : Storage.Memory}
      (hRun : s.runs client = some ⟨op, drawn, .request r next⟩) (hServes : Serves s.store r a store) :
      Step site s
        { s.withRun client (some ⟨op, Run.drawnAfter drawn r a, next a⟩) with
          store, log := s.log ++ [.answered client op r a] }
  | finish {client : Nat} {run : Run} {outcome : Except Error Reply}
      (hRun : s.runs client = some run) (hOutcome : run.rest.outcome? = some outcome) :
      Step site s
        { s.withRun client none with
          handles := s.handles ++ run.handout outcome,
          log := s.log ++ [.ended client run.operation outcome] }

/-- Any number of steps of any clients in any order. -/
def Steps (site : Site) : System → System → Prop := Relation.ReflTransGen (Step site)

/-- The states that clients can bring about, from an empty store on. -/
def Reachable (site : Site) (s : System) : Prop := Steps site initial s

end System

end SnapshotCatalog
