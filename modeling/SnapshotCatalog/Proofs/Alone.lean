import SnapshotCatalog.Proofs.Invariant
/-!
A client that goes on while all others stand still. Whoever runs its operation to the end, answering
as the store may, brings about a state that clients can bring about.
-/
namespace SnapshotCatalog

open Storage (Memory)

/-- Answers are those of the store that is somewhere in the state of who answers. -/
def AnswersFrom {σ : Type} (memory : σ → Memory) (answer : (r : Request) → σ → r.Answer × σ) : Prop :=
  ∀ r w, System.Serves (memory w) r (answer r w).1 (memory (answer r w).2)

namespace System

section Alone

variable {σ : Type} {memory : σ → Memory} {answer : (r : Request) → σ → r.Answer × σ} {site : Site}
  {s : System} {client : Nat}

/-- What is left of an operation can be run to its end. -/
theorem steps_run (hAnswers : AnswersFrom memory answer) {op : Operation Handle}
    {drawn : Option Uuid} {p : Program Reply} {w : σ}
    (hRun : s.runs client = some ⟨op, drawn, p⟩) (hStore : s.store = memory w) :
    ∃ s' drawn' rest, Steps site s s' ∧ s'.store = memory (p.run answer w).2 ∧
      s'.handles = s.handles ∧ s'.runs client = some ⟨op, drawn', rest⟩ ∧
      rest.outcome? = some (p.run answer w).1 := by
  induction p generalizing s drawn w with
  | done value => exact ⟨s, drawn, _, .refl, hStore, rfl, hRun, rfl⟩
  | fail e => exact ⟨s, drawn, _, .refl, hStore, rfl, hRun, rfl⟩
  | request r next ih =>
      have hServes : Serves s.store r (answer r w).1 (memory (answer r w).2) := by
        rw [hStore]
        exact hAnswers r w
      obtain ⟨next, hStep, hHandles, hRun, hStore⟩ : ∃ next', Step site s next' ∧
          next'.handles = s.handles ∧
          next'.runs client = some ⟨op, Run.drawnAfter drawn r (answer r w).1, next (answer r w).1⟩ ∧
          next'.store = memory (answer r w).2 :=
        ⟨_, .answer hRun hServes, rfl, Function.update_self .., rfl⟩
      obtain ⟨s', drawn', rest, hSteps, hEnd, hSame, hRest⟩ := ih (answer r w).1 hRun hStore
      exact ⟨s', drawn', rest, hSteps.head hStep, hEnd, hSame.trans hHandles, hRest⟩

/-- An idle client can run an operation to its end. A transaction that the operation delivers is
handed out. -/
theorem steps_operation (hAnswers : AnswersFrom memory answer) {op : Operation Handle} {w : σ}
    (hIdle : s.runs client = none) (hKnown : ∀ h, op.about? = some h → h ∈ s.handles)
    (hFits : op.Fits) (hStore : s.store = memory w) :
    ∃ s', Steps site s s' ∧
      s'.store = memory (((op.map Handle.transaction).program site).run answer w).2 ∧
      s'.runs client = none ∧ (∀ h ∈ s.handles, h ∈ s'.handles) ∧
      ∀ t, (((op.map Handle.transaction).program site).run answer w).1 = .ok (.transaction t) →
        ∃ h ∈ s'.handles, h.transaction = t := by
  obtain ⟨begun, hStart, hHandles, hRun, hBegun⟩ : ∃ begun, Step site s begun ∧
      begun.handles = s.handles ∧ begun.runs client = some (.start site op) ∧
      begun.store = memory w :=
    ⟨_, .start hIdle hKnown hFits, rfl, Function.update_self .., hStore⟩
  obtain ⟨s', drawn, rest, hSteps, hStore', hSame, hRun, hOutcome⟩ :=
    steps_run hAnswers hRun hBegun
  have hFinish : Step site s' _ := .finish hRun hOutcome
  refine ⟨_, (hSteps.head hStart).tail hFinish, hStore', Function.update_self .., fun h hMem => ?_,
    fun t hDelivered => ?_⟩
  · exact List.mem_append_left _ (hSame.trans hHandles ▸ hMem)
  · refine ⟨⟨t, op.past drawn⟩, List.mem_append_right _ ?_, rfl⟩
    rw [hDelivered]
    exact List.mem_singleton_self _

end Alone

end System

end SnapshotCatalog
