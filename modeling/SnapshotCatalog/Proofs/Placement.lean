import SnapshotCatalog.Host
import SnapshotCatalog.Proofs.Catalog
import SnapshotCatalog.Proofs.Courses
/-!
How changes place the definitions that they bring. A change that may be made draws an identifier, and
then the names of its object decide. With a high control in one of them the path is refused, before the
store is asked for anything; otherwise the store is asked to create the definition, and its answer
decides.
-/
namespace SnapshotCatalog

open Program

variable {site : Site} {t : Transaction} {trace : List Exchange}

namespace Change

variable {c : Change} {limits : KeyLimits} {key : String} {data : List UInt8} {path : Uuid → String}
  {outcome : Except Error Transaction}

/-- A change that brings a definition looks its row up and then stores the definition. -/
theorem ran_program (hDefinition : c.definition? = some (data, path))
    (h : (c.program site t).Ran trace outcome) :
    (∃ e, outcome = .error e ∧ (Lakehouse.look site t c.target).Ran trace (.error e)) ∨
      ∃ look rest row, trace = look ++ rest ∧
        (Lakehouse.look site t c.target).Ran look (.ok row) ∧
        Lakehouse.DefineCourse site t row path data rest outcome := by
  rw [c.program_eq] at h
  rcases h.of_bind with ⟨row, look, rest, rfl, hLook, hPerform⟩ | hFailed
  · refine .inr ⟨look, rest, row, rfl, hLook, ?_⟩
    rcases c.perform_cases with ⟨hNone, -⟩ | ⟨β, _, x, place, hBrought, hEq⟩
    · cases hNone.symm.trans hDefinition
    · cases hBrought.symm.trans hDefinition
      rw [hEq] at hPerform
      exact Lakehouse.ran_define hPerform
  · exact .inl hFailed

/-- Names that keys accept make paths that are accepted, unless one of them holds a high control. A change
of such an object that brings a definition fails while its row is looked up, or it draws an identifier,
and then the names decide. With a high control in one of them the path is refused, and the store is not
asked for anything; with any other names the store is asked to create the definition, and its answer is
how the change ends. -/
theorem names_decide_placement (hKey : c.key limits = .ok key)
    (hDefinition : c.definition? = some (data, path)) :
    (∀ id, Path.check (path id) =
      if c.slot.hasHighControl then .error (.invalidArgument (.path (.control (path id))))
      else .ok ()) ∧
    ∀ site t trace outcome, (c.program site t).Ran trace outcome →
      (∃ e, outcome = .error e ∧ (Lakehouse.look site t c.target).Ran trace (.error e)) ∨
      ∃ look row id, (Lakehouse.look site t c.target).Ran look (.ok row) ∧
        if c.slot.hasHighControl then
          trace = look ++ [⟨.freshUuid, id⟩] ∧
            outcome = .error (.invalidArgument (.path (.control (path id))))
        else ∃ answer,
          trace = look ++ [⟨.freshUuid, id⟩,
            ⟨.call (.put (site.resolve (path id)) (.bytes data) .createNew), answer⟩] ∧
          outcome = Lakehouse.placed t row (path id) answer := by
  have hCheck (id : Uuid) : Path.check (path id) =
      if c.slot.hasHighControl then .error (.invalidArgument (.path (.control (path id))))
      else .ok () := by
    rw [path_of_definition hDefinition]
    exact Slot.check_path (accepted_of_key hKey).1 id
  refine ⟨hCheck, fun site t trace outcome hRan => ?_⟩
  rcases ran_program hDefinition hRan with hFailed | ⟨look, rest, row, rfl, hLook, hCourse⟩
  · exact .inl hFailed
  · cases hCourse with
    | @refused id e hRefused =>
        refine .inr ⟨look, row, id, hLook, ?_⟩
        rw [hCheck] at hRefused
        by_cases hHigh : c.slot.hasHighControl = true
        · rw [if_pos hHigh] at hRefused ⊢
          cases hRefused
          exact ⟨rfl, rfl⟩
        · rw [if_neg hHigh] at hRefused
          cases hRefused
    | @answered id answer hAccepted =>
        refine .inr ⟨look, row, id, hLook, ?_⟩
        rw [hCheck] at hAccepted
        by_cases hHigh : c.slot.hasHighControl = true
        · rw [if_pos hHigh] at hAccepted
          cases hAccepted
        · rw [if_neg hHigh]
          exact ⟨answer, rfl, rfl⟩

/-- When the row of a change is found, the run does not end with the lookup, because an identifier is
drawn for the definition that the change brings. -/
theorem not_failed_of_found {σ : Type} {answer : (r : Request) → σ → r.Answer × σ} {s : σ} {e : Error}
    (hDefinition : c.definition? = some (data, path))
    (hFound : ((Lakehouse.look site t c.target).run answer s).1 = .ok key) :
    ¬ (Lakehouse.look site t c.target).Ran ((c.program site t).exchanges answer s) (.error e) := by
  intro hFailed
  have hAsks : (Lakehouse.look site t c.target).Asks (· ≠ .freshUuid) := Lakehouse.asks_look nofun _
  have hNone := hFailed.of_asks hAsks
  rw [c.program_eq, exchanges_bind hFound] at hNone
  rcases c.perform_cases with ⟨hRemoves, -⟩ | ⟨β, _, x, place, -, hEq⟩
  · cases hRemoves.symm.trans hDefinition
  · rw [hEq] at hNone
    exact hNone _ (List.mem_append_right _ List.mem_cons_self) rfl

end Change

/-- A host with a lakehouse that was just founded. -/
def Host.founded : Host :=
  .start (.memory (.insert .empty "definition" (.bytes (LakehouseDef.encode ⟨9, 9, 9, 9, .empty⟩)))) 0

/-- A transaction that began there. -/
def Transaction.founding : Transaction := .start ⟨0⟩ 0 .snapshot (Root.new "definition")

namespace Change

/-- In a new lakehouse a namespace with an accent is placed, and one with a high control is refused. -/
theorem names_decide_placement_founded :
    (∃ id row answer, (Host.founded.run ((createNamespace "né" ⟨.empty⟩).program .top .founding)).1 =
      Lakehouse.placed .founding row (DefinitionPath.ofNamespace "né" id) answer) ∧
    ∃ id, (Host.founded.run ((createNamespace "n\u0080" ⟨.empty⟩).program .top .founding)).1 =
      .error (.invalidArgument (.path (.control (DefinitionPath.ofNamespace "n\u0080" id)))) := by
  constructor
  · have hKey : (createNamespace "né" ⟨.empty⟩).key ⟨9, 9⟩ = .ok "B===né      " := rfl
    have hFound : (Host.founded.run
        (Lakehouse.look .top .founding (createNamespace "né" ⟨.empty⟩).target)).1 =
          .ok "B===né      " :=
      toOption_eq_some.mp (by decide +kernel)
    rcases (names_decide_placement hKey rfl).2 .top .founding _ _ (ran_exchanges _ _ _) with
      ⟨e, -, hLook⟩ | ⟨look, row, id, -, answer, -, hEnd⟩
    · exact (not_failed_of_found rfl hFound hLook).elim
    · exact ⟨id, row, answer, hEnd⟩
  · have hKey : (createNamespace "n\u0080" ⟨.empty⟩).key ⟨9, 9⟩ = .ok "B===n\u0080      " := rfl
    have hFound : (Host.founded.run
        (Lakehouse.look .top .founding (createNamespace "n\u0080" ⟨.empty⟩).target)).1 =
          .ok "B===n\u0080      " :=
      toOption_eq_some.mp (by decide +kernel)
    rcases (names_decide_placement hKey rfl).2 .top .founding _ _ (ran_exchanges _ _ _) with
      ⟨e, -, hLook⟩ | ⟨look, row, id, -, -, hEnd⟩
    · exact (not_failed_of_found rfl hFound hLook).elim
    · exact ⟨id, hEnd⟩

end Change

/-- A name of one high control is accepted, and no path for it is. -/
theorem Name.accepted_without_path :
    Name.check "namespace" "\u0080" 9 = .ok () ∧ ∀ id,
      Path.check (DefinitionPath.ofNamespace "\u0080" id) =
        .error (.invalidArgument (.path (.control (DefinitionPath.ofNamespace "\u0080" id)))) := by
  have hName : Name.check "namespace" "\u0080" 9 = .ok () := rfl
  have hAccepted : (Slot.ofNamespace "\u0080").Accepted ⟨9, 9⟩ := Name.check_eq_ok_iff.mp hName
  exact ⟨hName, fun id => Slot.check_path hAccepted id⟩

end SnapshotCatalog
