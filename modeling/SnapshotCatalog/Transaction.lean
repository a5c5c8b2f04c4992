import SnapshotCatalog.Root
import SnapshotCatalog.Text.Blank
/-!
Transactions. A transaction begins at a stored root and collects changes in a root of its own; the
root it began at never changes. It is committed or dropped, and as long as nobody else publishes
the next version in between, committing it publishes that version.
-/
namespace SnapshotCatalog

/-- The id that a text spells. -/
def TransactionId.parse (text : String) : Except Error TransactionId :=
  match TransactionId.read text with
  | .ok id => .ok id
  | .error fault => .error (.invalidArgument (.transactionId text fault))

/-- What a transaction asks to be kept apart from. Commits are checked against the whole chain
whatever the level, so the level is only recorded. -/
inductive IsolationLevel where
  | snapshot
  | serializable
  deriving DecidableEq, Repr

namespace IsolationLevel

def name : IsolationLevel → String
  | .snapshot => "snapshot"
  | .serializable => "serializable"

/-- The option that holds the level. -/
def optionName : String := "isolation_level"

/-- Reads a level, in any case and with blanks around it. -/
def read (text : String) : Except Error IsolationLevel :=
  let word := Text.lower (Text.trim text)
  if word = "snapshot" then .ok .snapshot
  else if word = "serializable" then .ok .serializable
  else .error (.invalidArgument (.setting (.unknown optionName "snapshot, serializable" word)))

/-- The level among the options of a transaction. Other options do not count. -/
def ofOptions (options : TextMap String) : Except Error IsolationLevel :=
  match options.get? optionName with
  | some text => read text
  | none => .ok .snapshot

end IsolationLevel

/-- A transaction that was neither committed nor dropped. `changes` counts the changes made, in natural
numbers, which never wrap: after 2^64 changes it exceeds every `UInt64`. -/
structure Transaction where
  id : TransactionId
  beganAt : Millis
  isolation : IsolationLevel
  beginning : Root
  running : Root
  changes : Nat
  deriving DecidableEq

namespace Transaction

/-- A transaction without changes. -/
def start (id : TransactionId) (beganAt : Millis) (isolation : IsolationLevel) (beginning : Root) :
    Transaction :=
  ⟨id, beganAt, isolation, beginning, beginning, 0⟩

/-- The transaction after one more change. -/
def withRunning (t : Transaction) (running : Root) : Transaction :=
  { t with running, changes := t.changes + 1 }

end Transaction

/-- A transaction that was committed, and the root it published. -/
structure Committed where
  id : TransactionId
  root : Root
  deriving DecidableEq

end SnapshotCatalog
