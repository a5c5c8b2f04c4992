import SnapshotCatalog.Proofs.Calls
import SnapshotCatalog.Proofs.Sessions
/-!
Schedules: the steps of several clients in an order that is fixed beforehand. A schedule names who
goes on next and the operation that an idle client starts; the store and a supply of identifiers and
times answer. What a schedule brings about is a state that clients can bring about, so a race can be
run to its end.
-/
namespace SnapshotCatalog

open Storage (Memory)

/-- What happens next: a client starts an operation on transactions that are named by their place among
those handed out, or it goes on by one step. -/
inductive Move where
  | start (client : Nat) (op : Operation Nat)
  | goOn (client : Nat)

namespace System

/-- The desk that answers the next request. Every event uses up one of each supply. -/
def desk (s : System) : Desk := ⟨s.store, s.log.length, s.log.length, s.log.length, s.log.length⟩

/-- A client whose operation has come to its end is idle again. -/
def finished (s : System) (client : Nat) (run : Run) (outcome : Except Error Reply) : System :=
  { s.withRun client none with
    handles := s.handles ++ run.handout outcome,
    log := s.log ++ [.ended client run.operation outcome] }

/-- The next step of a client. Nothing happens if it is idle. -/
def goOn (site : Site) (supply : Supply) (client : Nat) (s : System) : System :=
  match s.runs client with
  | none => s
  | some run =>
    match run.rest with
    | .done reply => s.finished client run (.ok reply)
    | .fail e => s.finished client run (.error e)
    | .request r next =>
      let (a, desk) := Desk.answer site supply (fun _ => .none) r s.desk
      { s.withRun client (some ⟨run.operation, Run.drawnAfter run.drawn r a, next a⟩) with
        store := desk.store, log := s.log ++ [.answered client run.operation r a] }

/-- One move. A client that is not idle starts nothing, and neither does one that names a transaction
which was not handed out. -/
def move (site : Site) (supply : Supply) (s : System) : Move → System
  | .goOn client => s.goOn site supply client
  | .start client op =>
    match s.runs client, op.on (s.handles[·]?) with
    | none, some op => s.withRun client (some (.start site op))
    | _, _ => s

/-- The state after a schedule. -/
def play (site : Site) (supply : Supply) (moves : List Move) : System :=
  moves.foldl (move site supply) initial

variable {site : Site} {supply : Supply} {s : System}

theorem steps_finished {client : Nat} {run : Run} (hRun : s.runs client = some run)
    {outcome : Except Error Reply} (hOutcome : run.rest.outcome? = some outcome) :
    Steps site s (s.finished client run outcome) := .single (.finish hRun hOutcome)

theorem steps_goOn (client : Nat) : Steps site s (s.goOn site supply client) := by
  rw [goOn]
  cases hRun : s.runs client with
  | none => exact .refl
  | some run =>
      obtain ⟨op, drawn, rest⟩ := run
      cases rest with
      | done reply => exact steps_finished hRun rfl
      | fail e => exact steps_finished hRun rfl
      | request r next => exact .single (.answer hRun (Desk.answersFrom site supply r s.desk))

theorem steps_move {m : Move} (hFits : ∀ client op, m = .start client op → op.Fits) :
    Steps site s (s.move site supply m) := by
  cases m with
  | goOn client => exact steps_goOn client
  | start client op =>
      rw [move]
      cases hIdle : s.runs client with
      | some run => exact .refl
      | none =>
          cases hFound : op.on (s.handles[·]?) with
          | none => exact .refl
          | some found =>
              exact .single (.start hIdle (fun h => Operation.mem_of_about?_on hFound)
                (Operation.fits_on hFound (hFits client op rfl)))

/-- What a schedule brings about is a state that clients can bring about. -/
theorem reachable_play {moves : List Move}
    (hFits : ∀ client op, .start client op ∈ moves → op.Fits) :
    Reachable site (play site supply moves) := by
  have hPlay (moves : List Move) (hFits : ∀ client op, .start client op ∈ moves → op.Fits) (s : System) :
      Steps site s (moves.foldl (move site supply) s) := by
    induction moves generalizing s with
    | nil => exact .refl
    | cons m rest ih =>
        have hFirst : Steps site s (s.move site supply m) := steps_move fun client op hSame =>
          hFits client op (hSame ▸ List.mem_cons_self ..)
        exact hFirst.trans (ih (fun client op hMem => hFits client op (List.mem_cons_of_mem _ hMem)) _)
  exact hPlay moves hFits initial

end System

/-- Whether all definitions in a schedule fit can be computed. -/
theorem Move.fits_of_all {moves : List Move}
    (hAll : (moves.all fun
      | .start _ op => decide op.Fits
      | .goOn _ => true) = true)
    {client : Nat} {op : Operation Nat} (hMem : .start client op ∈ moves) : op.Fits :=
  of_decide_eq_true (List.all_eq_true.mp hAll _ hMem)

/-! ### A race -/

/-- Two clients race to create a lakehouse, each with a definition of its own. Client 0 has found no
root when client 1 begins, wins and ends; then client 0 goes on and loses. Client 2 begins a
transaction at what client 1 made, creates a namespace and commits. -/
def Move.race : List Move :=
  [.start 0 (.create .standard), .goOn 0] ++
    .start 1 (.create { LakehouseDef.standard with namespaceNameMax := 7 }) ::
      List.replicate 7 (.goOn 1) ++ List.replicate 7 (.goOn 0) ++
    .start 2 (.begin .snapshot) :: List.replicate 10 (.goOn 2) ++
    .start 2 (.change 0 (.createNamespace "ns" .blank)) :: List.replicate 10 (.goOn 2) ++
    .start 2 (.commit 1) :: List.replicate 10 (.goOn 2)

theorem Move.fits_race {client : Nat} {op : Operation Nat} (hMem : .start client op ∈ race) :
    op.Fits :=
  fits_of_all (by decide +kernel) hMem

namespace System

/-- The state after the race. -/
def afterRace : System := play .top (.counting 5) Move.race

theorem reachable_afterRace : Reachable .top afterRace := reachable_play fun _ _ => Move.fits_race

end System

end SnapshotCatalog
