import SnapshotCatalog.TextMap
/-!
What operators are told about a running catalog: how many commits won and lost their race, how many
changes a commit folds together, and what it cost to find the newest root. Operations record
measurements one by one, and the totals are views of that record. Counts and totals are natural
numbers, which never wrap.
-/
namespace SnapshotCatalog

/-- Why the hint was of no use, so that the search for the newest root began at version 0. -/
inductive FallbackReason where
  | missing
  | unreadable
  | unparsable
  | stale
  deriving DecidableEq, Repr

def FallbackReason.name : FallbackReason → String
  | .missing => "missing"
  | .unreadable => "unreadable"
  | .unparsable => "unparsable"
  | .stale => "stale"

inductive Measurement where
  | commit (changes : Nat)
  | conflict
  | rootProbes (count : Nat)
  | hintFallback (reason : FallbackReason)
  | hintWriteFailure
  deriving DecidableEq, Repr

namespace Measurement

def commitsName : String := "tidal_commits_total"
def conflictsName : String := "tidal_commit_conflicts_total"
def changesName : String := "tidal_commit_mutations"
def rootProbesName : String := "tidal_root_probes_total"
def hintFallbacksName : String := "tidal_hint_fallbacks_total"
def hintWriteFailuresName : String := "tidal_hint_write_failures_total"

/-- A counter is summed up; a histogram keeps every value. -/
inductive Instrument where
  | counter
  | histogram
  deriving DecidableEq, Repr

def Instrument.name : Instrument → String
  | .counter => "counter"
  | .histogram => "histogram"

/-- Every name under which something is measured, with what it means. -/
def descriptions : List (Instrument × String × String) :=
  [(.counter, commitsName, "Total committed transactions"),
    (.counter, conflictsName, "Total commits that lost the race for their version"),
    (.histogram, changesName, "Mutations per committed transaction"),
    (.counter, rootProbesName, "Total existence probes while locating the latest root"),
    (.counter, hintFallbacksName, "Total hint reads that fell back to version 0"),
    (.counter, hintWriteFailuresName, "Total failed hint writes after commit")]

/-- The counter that a measurement adds to, and how much. Fallbacks are counted by reason. -/
def increment : Measurement → String × Nat
  | .commit _ => (commitsName, 1)
  | .conflict => (conflictsName, 1)
  | .rootProbes count => (rootProbesName, count)
  | .hintFallback reason => (hintFallbacksName ++ "\x7breason=" ++ reason.name ++ "\x7d", 1)
  | .hintWriteFailure => (hintWriteFailuresName, 1)

/-- The totals by name. A name under which nothing was recorded has none. -/
def counters (record : List Measurement) : TextMap Nat :=
  record.foldl (fun totals m =>
    totals.insert m.increment.1 ((totals.get? m.increment.1).getD 0 + m.increment.2)) .empty

def changes? : Measurement → Option Nat
  | .commit changes => some changes
  | _ => none

/-- How many changes each commit folded together, in the order of the commits. -/
def commitSizes (record : List Measurement) : List Nat := record.filterMap changes?

end Measurement

end SnapshotCatalog
