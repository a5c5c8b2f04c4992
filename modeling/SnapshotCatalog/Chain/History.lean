import SnapshotCatalog.Chain.Link
/-!
The history of a lakehouse: its roots, the newest first, read one at a time as they are asked for.
The newest root is looked for at the first poll and not before. A broken link is corruption here,
because whoever asks for the whole history must not take a part of it for the whole.
-/
namespace SnapshotCatalog.Chain

/-- How far a history was read. -/
inductive Cursor where
  | head
  | after (r : Root)

/-- Reads the next root. There is none after the root of version 0. -/
def poll (site : Site) : Cursor → Program (Option Root)
  | .head => return some (← latestRoot site)
  | .after r => do
    match ← readPrevious site r with
    | .root previous => return some previous
    | .start => return none
    | .broken path link => .fail (.corrupted path (.brokenLink link))

/-- Reads on until the history ends, for at most so many polls. The result is the roots that were
read and the error that ended the history, if one did. -/
def readOn (site : Site) : Nat → Cursor → Program (List Root × Option Error)
  | 0, _ => return ([], none)
  | polls + 1, cursor => do
    match ← (poll site cursor).attempt with
    | .error error => return ([], some error)
    | .ok none => return ([], none)
    | .ok (some r) =>
      let (rest, error) ← readOn site polls (.after r)
      return (r :: rest, error)

/-- A history has no more roots than there are versions, and one more poll finds its end. -/
def longest : Nat := UInt64.size + 1

/-- The roots of the lakehouse, the newest first, for at most so many polls. -/
def history (site : Site) (polls : Nat) : Program (List Root × Option Error) :=
  readOn site polls .head

/-- Reads the whole history and counts its roots. The count is a natural number and never wraps: with every
version stored there are 2^64 roots, one more than the largest `UInt64`. -/
def verify (site : Site) : Program Nat := do
  let (roots, error) ← history site longest
  match error with
  | some error => .fail error
  | none => return roots.length

end SnapshotCatalog.Chain
