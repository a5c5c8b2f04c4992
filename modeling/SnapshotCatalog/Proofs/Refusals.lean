import Mathlib.Data.List.DropRight
import SnapshotCatalog.Proofs.StillStore
/-!
What a store does that can be told to refuse calls. A call is refused if a failure was injected that concerns
it and no failures have been cleared since; then nothing happens, and otherwise the store answers as memory
does and logs the call. So what it holds and what its log shows can be read off the history of what was done
to it, and a batch of deletions that meets a refusal has done what stands before it.
-/
namespace SnapshotCatalog.Storage

/-! ### Calls, probes and batches -/

namespace Tracing

variable {t : Tracing} {c : Call}

/-- Whether an object is stored. -/
def contains (key : String) (t : Tracing) : Except Error Bool × Tracing :=
  let (reply, t) := answer (.head key) t
  (reply.map Option.isSome, t)

/-- Deletes keys one after another, up to the first that is refused. -/
def deleteMany : List String → Tracing → Except Error Unit × Tracing
  | [], t => (.ok (), t)
  | key :: rest, t =>
    match answer (.delete key) t with
    | (.ok (), t) => deleteMany rest t
    | (.error e, t) => (.error e, t)

/-- The store after a call that was not refused. -/
def serve (t : Tracing) (c : Call) : Tracing :=
  { t with objects := (Memory.answer c t.objects).2, log := t.log ++ [.ofCall c] }

/-- The store after deletions that were not refused. -/
def without (t : Tracing) (keys : List String) : Tracing :=
  { t with objects := keys.foldl TextMap.erase t.objects, log := t.log ++ keys.map .delete }

theorem answer_of_refused (h : t.refuses c = true) : answer c t = (.error (refusal c), t) := by
  rw [answer, if_pos h]

theorem answer_of_served (h : t.refuses c = false) :
    answer c t = ((Memory.answer c t.objects).1, t.serve c) := by
  rw [answer, h]
  cases c with
  | list start =>
      rw [serve, Memory.answer, TextMap.scan_eq_withStart]
      rfl
  | _ => rfl

theorem contains_of_refused {key : String} (h : t.refuses (.head key) = true) :
    contains key t = (.error (.storageRead (.injected key) none), t) := by
  rw [contains, answer_of_refused h]
  rfl

theorem contains_of_served {key : String} (h : t.refuses (.head key) = false) :
    contains key t = (.ok (t.objects.contains key), t.serve (.head key)) := by
  rw [contains, answer_of_served h, TextMap.contains, ← Option.isSome_map]
  rfl

/-- A batch goes on behind keys that may be deleted. -/
theorem deleteMany_append {before : List String} (h : ∀ key ∈ before, t.refuses (.delete key) = false)
    (rest : List String) : deleteMany (before ++ rest) t = deleteMany rest (t.without before) := by
  induction before generalizing t with
  | nil =>
      rw [without, List.map_nil, List.append_nil]
      rfl
  | cons key before ih =>
      have hNext : ∀ other ∈ before, (t.serve (.delete key)).refuses (.delete other) = false :=
        fun other hMem => h other (List.mem_cons_of_mem key hMem)
      rw [List.cons_append, deleteMany, answer_of_served (h key List.mem_cons_self)]
      refine (ih hNext).trans (congrArg (deleteMany rest) ?_)
      rw [without, without, serve, List.append_assoc]
      rfl

theorem deleteMany_of_served {keys : List String} (h : ∀ key ∈ keys, t.refuses (.delete key) = false) :
    deleteMany keys t = (.ok (), t.without keys) := by
  rw [← List.append_nil keys, deleteMany_append h, List.append_nil]
  rfl

/-- A batch that meets a key which is refused has deleted what stands before it. -/
theorem deleteMany_of_refused {before : List String} {key : String}
    (h : ∀ key ∈ before, t.refuses (.delete key) = false) (hKey : t.refuses (.delete key) = true)
    (rest : List String) : deleteMany (before ++ key :: rest) t =
      (.error (.storageWrite (.injected key) none), t.without before) := by
  have hRefused : (t.without before).refuses (.delete key) = true := hKey
  rw [deleteMany_append h, deleteMany, answer_of_refused hRefused]
  rfl

/-- In any case a batch deletes the keys before the first that is refused. -/
theorem snd_deleteMany (keys : List String) :
    (deleteMany keys t).2 = t.without (keys.takeWhile fun key => !t.refuses (.delete key)) := by
  have hBefore : ∀ key ∈ keys.takeWhile fun key => !t.refuses (.delete key),
      t.refuses (.delete key) = false :=
    fun key hMem => by simpa using List.mem_takeWhile_imp hMem
  have hSplit := @List.takeWhile_append_dropWhile _ (fun key => !t.refuses (.delete key)) keys
  cases hRest : keys.dropWhile fun key => !t.refuses (.delete key) with
  | nil =>
      rw [hRest, List.append_nil] at hSplit
      rw [hSplit] at hBefore ⊢
      rw [deleteMany_of_served hBefore]
  | cons key rest =>
      have hKey : t.refuses (.delete key) = true := by
        have hHead := List.head?_dropWhile_not (fun key => !t.refuses (.delete key)) keys
        rw [hRest] at hHead
        simpa using hHead
      have hDeleted := congrArg Prod.snd (deleteMany_of_refused hBefore hKey rest)
      rw [← hRest, hSplit] at hDeleted
      exact hDeleted

end Tracing

/-! ### Histories -/

/-- What can be done to a store that logs its calls. -/
inductive Deed where
  | call (c : Call)
  | contains (key : String)
  | deleteMany (keys : List String)
  | injectFailure (start : String)
  | injectWriteFailure (start : String)
  | clearFailures
  | clearLog
  | tamper (key : String) (blob : Blob)
  deriving DecidableEq

/-- The store after a deed. -/
def Deed.leave (t : Tracing) : Deed → Tracing
  | .call c => (Tracing.answer c t).2
  | .contains key => (Tracing.contains key t).2
  | .deleteMany keys => (Tracing.deleteMany keys t).2
  | .injectFailure start => t.injectFailure start
  | .injectWriteFailure start => t.injectWriteFailure start
  | .clearFailures => t.clearFailures
  | .clearLog => t.clearLog
  | .tamper key blob => t.tamper key blob

/-- The store after deeds, which was new before the first. -/
def Tracing.after (past : List Deed) : Tracing := past.foldl Deed.leave .empty

/-- A deed is an injected failure that concerns a call. -/
def Deed.Concerns (c : Call) : Deed → Prop
  | .injectFailure start => ∃ rest, c.key = start ++ rest
  | .injectWriteFailure start => c.isWrite = true ∧ ∃ rest, c.key = start ++ rest
  | _ => False

/-- After these deeds a call is refused: a failure was injected that concerns it, and no failures have been
cleared since. -/
def Refused (past : List Deed) (c : Call) : Prop :=
  ∃ before deed later, past = before ++ deed :: later ∧ deed.Concerns c ∧ .clearFailures ∉ later

theorem not_refused_nil (c : Call) : ¬ Refused [] c := by
  rintro ⟨before, deed, later, hPast, -⟩
  exact List.append_ne_nil_of_right_ne_nil before (List.cons_ne_nil deed later) hPast.symm

/-- One more deed refuses a call, or it leaves it refused unless it clears the failures. -/
theorem refused_concat {past : List Deed} {last : Deed} {c : Call} :
    Refused (past ++ [last]) c ↔ last.Concerns c ∨ last ≠ .clearFailures ∧ Refused past c := by
  constructor
  · rintro ⟨before, deed, later, hPast, hConcerns, hClear⟩
    rcases List.eq_nil_or_concat later with rfl | ⟨rest, other, rfl⟩
    · obtain ⟨-, hLast⟩ := List.append_inj' hPast rfl
      cases hLast
      exact .inl hConcerns
    · rw [List.concat_eq_append, ← List.cons_append, ← List.append_assoc] at hPast
      obtain ⟨rfl, hLast⟩ := List.append_inj' hPast rfl
      cases hLast
      rw [List.concat_eq_append, List.mem_append, not_or, List.mem_singleton] at hClear
      exact .inr ⟨Ne.symm hClear.2, before, deed, rest, rfl, hConcerns, hClear.1⟩
  · rintro (hConcerns | ⟨hKept, before, deed, later, rfl, hConcerns, hClear⟩)
    · exact ⟨past, last, [], rfl, hConcerns, List.not_mem_nil⟩
    · refine ⟨before, deed, later ++ [last], by simp, hConcerns, ?_⟩
      rw [List.mem_append, not_or, List.mem_singleton]
      exact ⟨hClear, Ne.symm hKept⟩

instance (c : Call) (deed : Deed) : Decidable (deed.Concerns c) :=
  match deed with
  | .injectFailure start =>
    decidable_of_iff (Text.startsWith c.key start = true) Text.startsWith_iff_exists
  | .injectWriteFailure start =>
    decidable_of_iff (c.isWrite = true ∧ Text.startsWith c.key start = true)
      (and_congr_right fun _ => Text.startsWith_iff_exists)
  | .call _ => .isFalse id
  | .contains _ => .isFalse id
  | .deleteMany _ => .isFalse id
  | .clearFailures => .isFalse id
  | .clearLog => .isFalse id
  | .tamper _ _ => .isFalse id

/-- The deeds since the failures were cleared last tell what is refused. -/
theorem refused_iff_exists (past : List Deed) (c : Call) :
    (∃ deed ∈ past.rtakeWhile (· ≠ .clearFailures), deed.Concerns c) ↔ Refused past c := by
  induction past using List.reverseRecOn with
  | nil => simp [not_refused_nil]
  | append_singleton past last ih =>
      rw [refused_concat, ← ih, List.rtakeWhile_concat]
      by_cases hClear : last = .clearFailures
      · subst hClear
        simp [Deed.Concerns]
      · simp [hClear, or_and_right, exists_or, or_comm]

instance (past : List Deed) (c : Call) : Decidable (Refused past c) :=
  decidable_of_iff _ (refused_iff_exists past c)

/-- What came of a deed: a call that was not refused, an object that was replaced behind the log's back, or
that the log was cleared. -/
inductive Fact where
  | done (c : Call)
  | tampered (key : String) (blob : Blob)
  | forgotten
  deriving DecidableEq

namespace Fact

/-- The objects after a fact, as a store in memory would hold them. -/
def alter (m : Memory) : Fact → Memory
  | .done c => (Memory.answer c m).2
  | .tampered key blob => m.insert key blob
  | .forgotten => m

/-- What the log shows of a fact. -/
def operation? : Fact → Option Operation
  | .done c => some (.ofCall c)
  | _ => none

/-- The log after a fact. -/
def write (log : List Operation) : Fact → List Operation
  | .forgotten => []
  | fact => log ++ fact.operation?.toList

end Fact

/-- What comes of a deed after others. Of a batch come the deletions before the first that is refused. -/
def Deed.facts (past : List Deed) : Deed → List Fact
  | .call c => if Refused past c then [] else [.done c]
  | .contains key => if Refused past (.head key) then [] else [.done (.head key)]
  | .deleteMany keys =>
    (keys.takeWhile fun key => !decide (Refused past (.delete key))).map fun key => .done (.delete key)
  | .tamper key blob => [.tampered key blob]
  | .clearLog => [.forgotten]
  | _ => []

/-- What comes of deeds one after another, after others. -/
def factsFrom (past : List Deed) : List Deed → List Fact
  | [] => []
  | deed :: rest => deed.facts past ++ factsFrom (past ++ [deed]) rest

/-- What came of all that was done to a store. -/
def facts (past : List Deed) : List Fact := factsFrom [] past

/-- The objects that calls which were not refused and replacements lead to. -/
def contentOf (facts : List Fact) : Memory := facts.foldl Fact.alter .empty

/-- The calls that were not refused since the log was cleared last. -/
def logOf (facts : List Fact) : List Operation :=
  (facts.rtakeWhile (· ≠ .forgotten)).filterMap Fact.operation?

theorem factsFrom_concat (earlier past : List Deed) (last : Deed) :
    factsFrom earlier (past ++ [last]) = factsFrom earlier past ++ last.facts (earlier ++ past) := by
  induction past generalizing earlier with
  | nil => simp [factsFrom]
  | cons deed rest ih =>
      rw [List.cons_append, factsFrom, ih, factsFrom, List.append_assoc, List.append_assoc]
      rfl

theorem facts_concat (past : List Deed) (last : Deed) :
    facts (past ++ [last]) = facts past ++ last.facts past :=
  factsFrom_concat [] past last

/-- The log is written fact by fact. -/
theorem logOf_eq_foldl (facts : List Fact) : logOf facts = facts.foldl Fact.write [] := by
  induction facts using List.reverseRecOn with
  | nil => rfl
  | append_singleton facts last ih =>
      rw [List.foldl_concat, ← ih, logOf, List.rtakeWhile_concat]
      cases last with
      | forgotten => rfl
      | done c => exact List.filterMap_append
      | tampered key blob => exact List.filterMap_append

/-! ### What a store holds and shows -/

/-- A store is as its history says. -/
structure Tracing.Reflects (past : List Deed) (t : Tracing) : Prop where
  refuses : ∀ c, t.refuses c = true ↔ Refused past c
  objects : t.objects = contentOf (facts past)
  log : t.log = logOf (facts past)

namespace Tracing

variable {past : List Deed} {t : Tracing} {c : Call}

theorem refuses_injectFailure (start : String) : (t.injectFailure start).refuses c = true ↔
    t.refuses c = true ∨ Text.startsWith c.key start = true := by
  simp [refuses, injectFailure]

theorem refuses_injectWriteFailure (start : String) : (t.injectWriteFailure start).refuses c = true ↔
    t.refuses c = true ∨ Text.startsWith c.key start = true ∧ c.isWrite = true := by
  simp [refuses, injectWriteFailure]

theorem refusals_answer (c : Call) (t : Tracing) : (answer c t).2.refusals = t.refusals := by
  cases hRefuses : t.refuses c with
  | true => rw [answer_of_refused hRefuses]
  | false => rw [answer_of_served hRefuses, serve]

theorem refuses_congr {other : Tracing} (h : other.refusals = t.refusals) (c : Call) :
    other.refuses c = t.refuses c := by
  rw [refuses, refuses, h]

/-- Deeds that are no injections leave it as it was what is refused, unless they clear the failures. -/
theorem refuses_leave_of_kept (h : ∀ c, t.refuses c = true ↔ Refused past c) (deed : Deed)
    (hKept : (deed.leave t).refusals = t.refusals) (hSilent : ∀ c, ¬ deed.Concerns c)
    (hClear : deed ≠ .clearFailures) (c : Call) :
    (deed.leave t).refuses c = true ↔ Refused (past ++ [deed]) c := by
  rw [refuses_congr hKept, h, refused_concat]
  exact ⟨fun hRefused => .inr ⟨hClear, hRefused⟩, fun hNext => (hNext.resolve_left (hSilent c)).2⟩

theorem refuses_leave (h : ∀ c, t.refuses c = true ↔ Refused past c) (deed : Deed) (c : Call) :
    (deed.leave t).refuses c = true ↔ Refused (past ++ [deed]) c := by
  cases deed with
  | call other =>
      exact refuses_leave_of_kept h (.call other) (refusals_answer other t) (fun _ => id) nofun c
  | contains key =>
      exact refuses_leave_of_kept h (.contains key) (refusals_answer (.head key) t) (fun _ => id) nofun c
  | deleteMany keys =>
      have hKept : (deleteMany keys t).2.refusals = t.refusals := by rw [snd_deleteMany, without]
      exact refuses_leave_of_kept h (.deleteMany keys) hKept (fun _ => id) nofun c
  | clearLog => exact refuses_leave_of_kept h .clearLog rfl (fun _ => id) nofun c
  | tamper key blob => exact refuses_leave_of_kept h (.tamper key blob) rfl (fun _ => id) nofun c
  | injectFailure start =>
      rw [Deed.leave, refuses_injectFailure, h, refused_concat, Text.startsWith_iff_exists, or_comm]
      exact or_congr_right ⟨fun hRefused => ⟨nofun, hRefused⟩, And.right⟩
  | injectWriteFailure start =>
      rw [Deed.leave, refuses_injectWriteFailure, h, refused_concat, Text.startsWith_iff_exists, or_comm,
        and_comm]
      exact or_congr_right ⟨fun hRefused => ⟨nofun, hRefused⟩, And.right⟩
  | clearFailures =>
      rw [refused_concat]
      exact ⟨nofun, fun hNever => hNever.elim False.elim fun hKept => absurd rfl hKept.1⟩

/-- Of a call comes what it does to the objects and to the log, unless it is refused. -/
theorem answer_facts (h : ∀ c, t.refuses c = true ↔ Refused past c) (c : Call) :
    (answer c t).2.objects = (if Refused past c then [] else [.done c]).foldl Fact.alter t.objects ∧
      (answer c t).2.log = (if Refused past c then [] else [.done c]).foldl Fact.write t.log := by
  by_cases hRefused : Refused past c
  · rw [answer_of_refused ((h c).mpr hRefused), if_pos hRefused]
    exact ⟨rfl, rfl⟩
  · have hServes : t.refuses c = false := Bool.not_eq_true _ ▸ mt (h c).mp hRefused
    rw [answer_of_served hServes, if_neg hRefused]
    exact ⟨rfl, rfl⟩

theorem foldl_write_done (log : List Operation) (keys : List String) :
    (keys.map fun key => Fact.done (.delete key)).foldl Fact.write log = log ++ keys.map .delete := by
  induction keys generalizing log with
  | nil => rw [List.map_nil, List.map_nil, List.append_nil, List.foldl_nil]
  | cons key rest ih =>
      rw [List.map_cons, List.foldl_cons, ih, List.map_cons, List.append_cons log]
      rfl

/-- A store takes from a deed the facts that come of it. -/
theorem leave_eq (h : ∀ c, t.refuses c = true ↔ Refused past c) (deed : Deed) :
    (deed.leave t).objects = (deed.facts past).foldl Fact.alter t.objects ∧
      (deed.leave t).log = (deed.facts past).foldl Fact.write t.log := by
  cases deed with
  | call c => exact answer_facts h c
  | contains key => exact answer_facts h (.head key)
  | deleteMany keys =>
      have hSame : (fun key => !t.refuses (.delete key)) =
          fun key => !decide (Refused past (.delete key)) := by
        funext key
        rw [Bool.eq_iff_iff.mpr ((h (.delete key)).trans decide_eq_true_iff.symm)]
      rw [Deed.leave, snd_deleteMany, hSame, Deed.facts, foldl_write_done, List.foldl_map]
      exact ⟨rfl, rfl⟩
  | injectFailure start => exact ⟨rfl, rfl⟩
  | injectWriteFailure start => exact ⟨rfl, rfl⟩
  | clearFailures => exact ⟨rfl, rfl⟩
  | clearLog => exact ⟨rfl, rfl⟩
  | tamper key blob => exact ⟨rfl, (List.append_nil _).symm⟩

theorem Reflects.leave (h : t.Reflects past) (deed : Deed) : (deed.leave t).Reflects (past ++ [deed]) := by
  obtain ⟨hObjects, hLog⟩ := leave_eq h.refuses deed
  refine ⟨refuses_leave h.refuses deed, ?_, ?_⟩
  · rw [hObjects, h.objects, facts_concat, contentOf, contentOf, List.foldl_append]
  · rw [hLog, h.log, facts_concat, logOf_eq_foldl, logOf_eq_foldl, List.foldl_append]

theorem reflects_after (past : List Deed) : (after past).Reflects past := by
  induction past using List.reverseRecOn with
  | nil => exact ⟨fun c => ⟨nofun, fun h => absurd h (not_refused_nil c)⟩, rfl, rfl⟩
  | append_singleton past last ih =>
      rw [after, List.foldl_concat]
      exact ih.leave last

/-- On a host whose store logs its calls, deletions one after another are a batch. -/
theorem run_deleteKeys {host : Host} (hStore : host.store = .ofBackend (.tracing t)) (keys : List String) :
    host.run (Site.deleteKeys keys) = ((deleteMany keys t).1,
      { host with store := .ofBackend (.tracing (deleteMany keys t).2) }) := by
  induction keys generalizing host t with
  | nil =>
      rw [deleteMany, ← hStore]
      rfl
  | cons key rest ih =>
      have hStep : Host.answer (.call (.delete key)) host = ((answer (.delete key) t).1,
          { host with store := .ofBackend (.tracing (answer (.delete key) t).2) }) :=
        Host.answer_backend hStore (.delete key)
      rw [Host.run, Site.deleteKeys, Program.bind_eq, Program.run_bind, Program.run_call, hStep, deleteMany]
      generalize answer (.delete key) t = answered
      obtain ⟨reply, after⟩ := answered
      cases reply with
      | ok value => exact ih rfl
      | error e => rfl

/-- Failures are injected all or nothing. Whatever was done to a store that logs its calls, a call that an
injected failure concerns fails as a write or as a read and nothing happens. Every other call answers and does
what it would in memory to the objects that the calls which were not refused and the replacements have led to,
and it is logged; the log shows the calls which were not refused since it was cleared last, in their order. A
batch of deletions without a refusal deletes and logs all its keys, and one that meets a refusal has deleted
and logged the keys before it. -/
theorem refusals_all_or_nothing (past : List Deed) :
    ((after past).objects = contentOf (facts past) ∧ (after past).log = logOf (facts past)) ∧
    (∀ c, Refused past c → answer c (after past) =
      (.error (if c.isWrite then .storageWrite (.injected c.key) none
        else .storageRead (.injected c.key) none), after past)) ∧
    (∀ c, ¬ Refused past c → answer c (after past) =
      ((Memory.answer c (contentOf (facts past))).1,
        { after past with
          objects := (Memory.answer c (contentOf (facts past))).2
          log := logOf (facts past) ++ [.ofCall c] })) ∧
    (∀ key, contains key (after past) =
      if Refused past (.head key) then (.error (.storageRead (.injected key) none), after past)
      else (.ok ((contentOf (facts past)).contains key),
        { after past with log := logOf (facts past) ++ [.head key] })) ∧
    (∀ keys, (∀ key ∈ keys, ¬ Refused past (.delete key)) → deleteMany keys (after past) =
      (.ok (), { after past with
        objects := keys.foldl TextMap.erase (contentOf (facts past))
        log := logOf (facts past) ++ keys.map .delete })) ∧
    (∀ before key rest, (∀ key ∈ before, ¬ Refused past (.delete key)) → Refused past (.delete key) →
      deleteMany (before ++ key :: rest) (after past) =
        (.error (.storageWrite (.injected key) none), { after past with
          objects := before.foldl TextMap.erase (contentOf (facts past))
          log := logOf (facts past) ++ before.map .delete })) ∧
    ∀ (host : Host) (keys : List String), host.store = .ofBackend (.tracing (after past)) →
      host.run (Site.deleteKeys keys) = ((deleteMany keys (after past)).1,
        { host with store := .ofBackend (.tracing (deleteMany keys (after past)).2) }) := by
  obtain ⟨hRefuses, hObjects, hLog⟩ := reflects_after past
  have hServes (c : Call) (hNot : ¬ Refused past c) : (after past).refuses c = false :=
    Bool.not_eq_true _ ▸ mt (hRefuses c).mp hNot
  rw [← hObjects, ← hLog]
  refine ⟨⟨rfl, rfl⟩, fun c hRefused => ?_, fun c hNot => ?_, fun key => ?_, fun keys hNot => ?_,
    fun before key rest hNot hRefused => ?_, fun host keys hStore => run_deleteKeys hStore keys⟩
  · exact answer_of_refused ((hRefuses c).mpr hRefused)
  · exact answer_of_served (hServes c hNot)
  · split
    · next hRefused => exact contains_of_refused ((hRefuses _).mpr hRefused)
    · next hNot => exact contains_of_served (hServes _ hNot)
  · exact deleteMany_of_served fun key hMem => hServes _ (hNot key hMem)
  · exact deleteMany_of_refused (fun key hMem => hServes _ (hNot key hMem)) ((hRefuses _).mpr hRefused) rest

/-- Two failures that overlap. The batch stops at its second key, whose deletion one of them concerns, and the
other concerns the read. Once they are cleared everything goes through again. -/
example : (after [.call (.put "a/x" (.bytes [1]) .createNew), .tamper "a/y" (.bytes []), .clearLog,
      .injectWriteFailure "a/", .injectFailure "a/y", .deleteMany ["b", "a/x", "c"], .call (.get "a/y"),
      .call (.get "a/x"), .clearFailures, .call (.delete "a/x")]).log =
    [.delete "b", .get "a/x", .delete "a/x"] := by
  decide +kernel

end Tracing

end SnapshotCatalog.Storage
