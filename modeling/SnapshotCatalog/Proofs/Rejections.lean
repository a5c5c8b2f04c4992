import SnapshotCatalog.Proofs.Initialization
/-!
Creations that are refused for what they were given. A limit that is zero is noticed before anything is
asked. That version 0 does not fit into a node file is noticed only when its root is about to be
created, and the definition of the lakehouse has been stored by then: it stays, although nothing will
ever name it.
-/
namespace SnapshotCatalog

open Storage (Memory)
open Program Exchange

variable {site : Site} {d : LakehouseDef} {trace : List Exchange} {why : ArgumentFault} {m m' : Memory}

/-- A store does not object to what it is asked. -/
theorem System.Serves.ne_invalidArgument {c : Storage.Call} {a : c.Answer}
    (h : Serves m (.call c) a m') : a ≠ .error (.invalidArgument why) := by
  rintro rfl
  generalize hError : Except.error (Error.invalidArgument why) = a at h
  cases h with
  | failed _ e hFault =>
      cases hError
      cases hFault
  | performed _ =>
      cases c with
      | get key =>
          rw [Memory.answer] at hError
          split at hError <;> cases hError
      | put key blob mode =>
          rw [Memory.answer] at hError
          split at hError <;> cases hError
      | delete key => cases hError
      | list start => cases hError
      | head key => cases hError

theorem System.ServesAll.ne_invalidArgument (h : ServesAll m trace m') {c : Storage.Call} :
    ⟨.call c, .error (.invalidArgument why)⟩ ∉ trace := by
  intro hMem
  induction h with
  | nil m => cases hMem
  | cons hServes _ ih =>
      rcases List.mem_cons.mp hMem with rfl | hRest
      · exact hServes.ne_invalidArgument rfl
      · exact ih hRest

/-- What a probe does not find is not there. -/
theorem System.Serves.contains_of_head {key : String}
    (h : Serves m (.call (.head key)) (.ok none) m') : m.contains key = false := by
  generalize hFound : Except.ok none = a at h
  cases h with
  | failed _ e hFault => cases hFound
  | performed _ =>
      have hNone := Except.ok.inj hFound
      rw [TextMap.contains, Option.map_eq_none_iff.mp hNone.symm]
      rfl

namespace Lakehouse

/-- The fault that an outcome finds with an argument, if it is one. -/
def refusal? {α : Type} : Except Error α → Option ArgumentFault
  | .error (.invalidArgument why) => some why
  | _ => none

theorem refusal?_eq_some_iff {α : Type} {outcome : Except Error α} :
    refusal? outcome = some why ↔ outcome = .error (.invalidArgument why) := by
  unfold refusal?
  split
  · exact ⟨fun h => by rw [Option.some.inj h], fun h => by cases h; rfl⟩
  · next hOther => exact ⟨nofun, fun h => absurd h (hOther why)⟩

/-- The node of version 0 of a lakehouse whose definition has this identifier. -/
def firstNode (id : Uuid) (time : Millis) : Node.File :=
  Node.encode (.new (DefinitionPath.ofLakehouse id)) time

/-- How a creation is refused with an invalid argument: what was exchanged, and the store before and
after it. -/
inductive Rejected (site : Site) (d : LakehouseDef) :
    Memory → List Exchange → ArgumentFault → Memory → Prop
  | zeroLimit {m : Memory} {limit : String} (hZero : d.zeroLimit? = some limit) :
      Rejected site d m [] (.zeroLimit limit) m
  | tooLarge {m : Memory} {id : Uuid} {time : Millis} (hPositive : d.zeroLimit? = none)
      (hSize : d.nodeFileMax.toNat < (firstNode id time).size)
      (hRoot : m.contains (site.resolve (RootPath.ofVersion 0)) = false)
      (hFresh : m.contains (site.resolve (DefinitionPath.ofLakehouse id)) = false) :
      Rejected site d m
        [⟨.call (.head (site.resolve (RootPath.ofVersion 0))), .ok none⟩, ⟨.freshUuid, id⟩,
          ⟨.call (.put (site.resolve (DefinitionPath.ofLakehouse id)) (.bytes d.encode) .createNew),
            .ok .written⟩,
          ⟨.clock, time⟩]
        (.nodeTooLarge (firstNode id time).size d.nodeFileMax.toNat)
        (m.insert (site.resolve (DefinitionPath.ofLakehouse id)) (.bytes d.encode))

theorem checkSize_eq_error_iff {file : Node.File} {e : Error} : checkSize file d = .error e ↔
    d.nodeFileMax.toNat < file.size ∧
      e = .invalidArgument (.nodeTooLarge file.size d.nodeFileMax.toNat) := by
  rw [checkSize]
  split
  · next hSize => exact ⟨fun h => ⟨hSize, (Except.error.inj h).symm⟩, fun h => congrArg _ h.2.symm⟩
  · next hSize =>
    constructor
    · rintro ⟨⟩
    · exact fun h => absurd h.1 hSize

/-- The store of a creation that stored its definition, having been told that there is no version 0. -/
theorem served_of_defined {id : Uuid} {rest : List Exchange} {blob : Storage.Blob}
    (hServed : System.ServesAll m
      (⟨.call (.head (site.resolve (RootPath.ofVersion 0))), .ok none⟩ :: ⟨.freshUuid, id⟩ ::
        ⟨.call (.put (site.resolve (DefinitionPath.ofLakehouse id)) blob .createNew), .ok .written⟩ ::
        rest) m') :
    m.contains (site.resolve (RootPath.ofVersion 0)) = false ∧
      m.contains (site.resolve (DefinitionPath.ofLakehouse id)) = false ∧
      System.ServesAll (m.insert (site.resolve (DefinitionPath.ofLakehouse id)) blob) rest m' := by
  obtain _ | ⟨hHead, hServed⟩ := hServed
  obtain _ | ⟨hDrawn, hServed⟩ := hServed
  obtain _ | ⟨hWrite, hServed⟩ := hServed
  cases hHead.store_eq
  cases hDrawn.store_eq
  cases hWrite.store_eq
  exact ⟨hHead.contains_of_head, hWrite.contains_of_created, hServed⟩

/-- A definition with a limit that is zero is refused before anything is asked. -/
theorem create_of_zeroLimit {σ : Type} {limit : String} (hZero : d.zeroLimit? = some limit)
    (site : Site) (answer : (r : Request) → σ → r.Answer × σ) (w : σ) :
    (create site d).exchanges answer w = [] ∧
      (create site d).run answer w = (.error (.invalidArgument (.zeroLimit limit)), w) := by
  rw [create, LakehouseDef.validate, hZero]
  exact ⟨rfl, rfl⟩

/-- Of what comes after the limits, only the size of the root can be at fault. A store objects to
nothing, so it has been told that there is no version 0 and it has stored the definition. -/
theorem CreateCourse.rejected (hPositive : d.zeroLimit? = none)
    (h : CreateCourse site d trace (.error (.invalidArgument why)))
    (hServed : System.ServesAll m trace m') : Rejected site d m trace why m' := by
  cases h with
  | invalid hInvalid =>
      rw [LakehouseDef.validate, hPositive] at hInvalid
      cases hInvalid
  | unprobed hProbe =>
      obtain ⟨answer, rfl, hAnswer⟩ := Chain.ran_hasRoot hProbe
      cases answer with
      | ok found => cases hAnswer
      | error e =>
          cases hAnswer
          exact (hServed.ne_invalidArgument (List.mem_singleton_self _)).elim
  | @undefined probe write id e hProbe hWrite =>
      rcases Definition.ran_store hWrite with ⟨-, e, hKey, -⟩ | ⟨answer, rfl, hSettled⟩
      · rw [Site.key, DefinitionPath.check_ofLakehouse] at hKey
        cases hKey
      · cases answer with
        | ok found => cases found <;> cases hSettled
        | error e =>
            cases hSettled
            exact (hServed.ne_invalidArgument (List.mem_append_right probe
              (List.mem_cons_of_mem _ (List.mem_singleton_self _)))).elim
  | @unpublished probe write publish id e hProbe hWrite hPublish =>
      obtain ⟨answer, rfl, hAnswer⟩ := Chain.ran_hasRoot hProbe
      obtain rfl : answer = .ok none := by
        cases answer with
        | error e => cases hAnswer
        | ok found =>
            cases found with
            | none => rfl
            | some found => cases hAnswer
      obtain rfl := Definition.eq_of_ran_store hWrite
      obtain ⟨hRoot, hFresh, hServed⟩ := served_of_defined hServed
      cases hPublish with
      | large hSize =>
          obtain ⟨hLarge, hWhy⟩ := checkSize_eq_error_iff.mp hSize
          cases hWhy
          cases hServed.store_eq
          exact .tooLarge hPositive hLarge hRoot hFresh
      | failed hSize =>
          exact (hServed.ne_invalidArgument
            (List.mem_cons_of_mem _ (List.mem_singleton_self _))).elim

/-- A creation that is refused with an invalid argument was given a limit that is zero, and then nothing
was asked and nothing has changed; or the root of version 0 is larger than the definition allows, and
then exactly one object has come into being, the definition itself. -/
theorem create_rejected {σ : Type} {memory : σ → Memory} {answer : (r : Request) → σ → r.Answer × σ}
    (hAnswers : AnswersFrom memory answer) (site : Site) (d : LakehouseDef) (w : σ) :
    (∀ limit, d.zeroLimit? = some limit →
      (create site d).run answer w = (.error (.invalidArgument (.zeroLimit limit)), w)) ∧
    ∀ why, ((create site d).run answer w).1 = .error (.invalidArgument why) →
      Rejected site d (memory w) ((create site d).exchanges answer w) why
        (memory ((create site d).run answer w).2) := by
  refine ⟨fun limit hZero => (create_of_zeroLimit hZero site answer w).2, fun why hRefused => ?_⟩
  cases hZero : d.zeroLimit? with
  | some limit =>
      obtain ⟨hNothing, hRun⟩ := create_of_zeroLimit hZero site answer w
      rw [hRun] at hRefused
      cases hRefused
      rw [hNothing, hRun]
      exact .zeroLimit hZero
  | none =>
      have hRan := ran_exchanges answer (create site d) w
      rw [hRefused] at hRan
      exact (ran_create hRan).rejected hZero (System.servesAll_exchanges hAnswers _ w)

/-- What stays behind when no limit is zero. -/
theorem Rejected.store_of_positive (h : Rejected site d m trace why m')
    (hPositive : d.zeroLimit? = none) :
    ∃ id, m' = m.insert (site.resolve (DefinitionPath.ofLakehouse id)) (.bytes d.encode) := by
  cases h with
  | zeroLimit hZero =>
      rw [hPositive] at hZero
      cases hZero
  | tooLarge => exact ⟨_, rfl⟩

/-- A definition that allows node files of one byte. -/
def narrow : LakehouseDef := { LakehouseDef.standard with nodeFileMax := 1 }

theorem refusal_narrow : ∃ why,
    ((create .top narrow).run (Desk.answer .top (.counting 5) fun _ => .none) .empty).1 =
        .error (.invalidArgument why) ∧
      why.message = "root node of 1106 bytes exceeds node_file_max_size_bytes 1" := by
  have hMessage : (refusal? ((create .top narrow).run
      (Desk.answer .top (.counting 5) fun _ => .none) .empty).1).map ArgumentFault.message =
        some "root node of 1106 bytes exceeds node_file_max_size_bytes 1" := by
    decide +kernel
  obtain ⟨why, hWhy, hMessage⟩ := Option.map_eq_some_iff.mp hMessage
  exact ⟨why, refusal?_eq_some_iff.mp hWhy, hMessage⟩

/-- With a limit of zero nothing happens. With one that is too small for version 0, the definition that
was refused is in the store. -/
theorem create_rejected_narrow :
    ((create .top { narrow with tableNameMax := 0 }).run (Desk.answer .top (.counting 5) fun _ => .none)
        .empty).2 = .empty ∧
      ∃ id, ((create .top narrow).run (Desk.answer .top (.counting 5) fun _ => .none) .empty).2.store =
        TextMap.insert .empty (Site.top.resolve (DefinitionPath.ofLakehouse id)) (.bytes narrow.encode) := by
  have hAnswers := Desk.answersFrom .top (.counting 5)
  constructor
  · have hZero := (create_rejected hAnswers .top { narrow with tableNameMax := 0 } .empty).1
      "table_name_max_size_bytes" (by decide)
    rw [hZero]
  · obtain ⟨why, hRefused, -⟩ := refusal_narrow
    have hRejected := (create_rejected hAnswers .top narrow .empty).2 why hRefused
    exact hRejected.store_of_positive (by decide)

/-- A creation that is refused with an invalid argument can leave something behind in a store that was
empty. -/
theorem refused_definition_stays :
    ¬ ∀ (d : LakehouseDef) (desk : Desk) (why : ArgumentFault),
      ((create .top d).run (Desk.answer .top (.counting 5) fun _ => .none) desk).1 =
        .error (.invalidArgument why) →
      ((create .top d).run (Desk.answer .top (.counting 5) fun _ => .none) desk).2.store =
        desk.store := by
  intro hUnchanged
  obtain ⟨why, hRefused, -⟩ := refusal_narrow
  exact absurd (hUnchanged narrow .empty why hRefused) (by decide +kernel)

end Lakehouse

end SnapshotCatalog
