import SnapshotCatalog.Proofs.Calls
import SnapshotCatalog.Proofs.Serialization
/-!
Identifiers that no two clients draw. A definition is stored at a path that bears the identifier its
writer drew. As long as no identifier is drawn twice, whatever bears one was written by whoever drew
it, and so a client that has written nothing yet finds nothing where it writes its definition.
-/
namespace SnapshotCatalog

open Storage (Memory)
open Program Exchange

/-- The identifier of a definition that was drawn in an event, if one was. -/
def Event.drawn? : Event → Option Uuid
  | .answered _ _ .freshUuid id => some id
  | _ => none

/-- The identifiers of definitions that were drawn, in their order. -/
def drawnIn (log : List Event) : List Uuid := log.filterMap Event.drawn?

/-- The exchange in which an identifier was drawn. -/
def Exchange.drew (id : Uuid) : Exchange := ⟨.freshUuid, id⟩

/-- Nothing is stored at a path that bears an identifier. -/
def Site.Unused (site : Site) (m : Memory) (id : Uuid) : Prop :=
  ∀ path, DefinitionPath.Bears id path → m.contains (site.resolve path) = false

/-- No creation of a definition came too late that was asked for before anything was written, at a
path that bears an identifier drawn before. -/
def Unspoilt (site : Site) (trace : List Exchange) : Prop :=
  ∀ before after id path blob, drew id ∈ before → DefinitionPath.Bears id path →
    alterations before = [] → trace ≠ before ++
      ⟨.call (.put (site.resolve path) blob .createNew), .ok .alreadyExists⟩ :: after

variable {site : Site} {m m' : Memory} {published : List Publication} {op : Operation Handle}
  {drawn : Option Uuid} {id : Uuid}

theorem drawnIn_append (log : List Event) (event : Event) :
    drawnIn (log ++ [event]) = drawnIn log ++ event.drawn?.toList := by
  rw [drawnIn, List.filterMap_append]
  cases h : event.drawn? with
  | none => simp [drawnIn, h]
  | some id => simp [drawnIn, h]

theorem Event.drawn?_answered_ne {client : Nat} {r : Request} (h : r ≠ .freshUuid) (a : r.Answer) :
    (Event.answered client op r a).drawn? = none := by
  cases r with
  | freshUuid => exact absurd rfl h
  | _ => rfl

theorem unspoilt_nil (site : Site) : Unspoilt site [] := by
  intro before after id path blob _ _ _ hSame
  cases before <;> cases hSame

/-- One more exchange leaves the others as unspoilt as they were, unless it is such a creation
itself. -/
theorem Unspoilt.append {trace : List Exchange} {x : Exchange} (h : Unspoilt site trace)
    (hLast : ∀ id path blob, drew id ∈ trace → DefinitionPath.Bears id path →
      alterations trace = [] →
        x ≠ ⟨.call (.put (site.resolve path) blob .createNew), .ok .alreadyExists⟩) :
    Unspoilt site (trace ++ [x]) := by
  intro before after id path blob hDrew hBears hNone hSame
  rcases List.eq_nil_or_concat after with rfl | ⟨rest, last, rfl⟩
  · obtain ⟨rfl, hLastSame⟩ := List.append_inj' hSame rfl
    exact hLast id path blob hDrew hBears hNone (List.singleton_inj.mp hLastSame)
  · rw [List.concat_eq_append, ← List.cons_append, ← List.append_assoc] at hSame
    exact h before rest id path blob hDrew hBears hNone (List.append_inj' hSame rfl).1

/-- An answered request stores something at a path that bears an identifier only if its client drew
that identifier, and then it is a write. -/
theorem contains_of_serves {r : Request} {a : r.Answer} {path : String}
    (hPermitted : Permitted site m op drawn r) (hServes : System.Serves m r a m')
    (hBears : DefinitionPath.Bears id path) (hStored : m'.contains (site.resolve path) = true) :
    m.contains (site.resolve path) = true ∨ drawn = some id := by
  -- A write elsewhere says nothing of this path.
  have hElsewhere {key : String} {blob : Storage.Blob} (hKey : site.resolve path ≠ key)
      (hInsert : m' = m.insert key blob) : m.contains (site.resolve path) = true := by
    rwa [hInsert, TextMap.contains, TextMap.get?_insert_of_ne _ hKey] at hStored
  have hRoot {v : Version} {blob : Storage.Blob} {answer : Except Error Storage.WriteOutcome}
      (hServes : System.Serves m
        (.call (.put (site.resolve (RootPath.ofVersion v)) blob .createNew)) answer m') :
      m.contains (site.resolve path) = true := by
    rcases hServes.createNew with ⟨-, -, hInsert⟩ | ⟨-, -, rfl⟩ | ⟨_, -, -, rfl⟩
    · exact hElsewhere (fun hSame => hBears.ne_root v (site.resolve_injective hSame)) hInsert
    · exact hStored
    · exact hStored
  cases hPermitted with
  | quiet hQuiet =>
      have hSame : m' = m := by
        rw [hServes.store_eq, alteration?_of_quiet (x := ⟨r, a⟩) hQuiet]
        rfl
      exact .inl (hSame ▸ hStored)
  | draw =>
      cases hServes
      exact .inl hStored
  | @definition other otherPath data hDrawn hOther =>
      rcases hServes.createNew with ⟨-, -, hInsert⟩ | ⟨-, -, rfl⟩ | ⟨_, -, -, rfl⟩
      · by_cases hPath : path = otherPath
        · subst hPath
          exact .inr (hDrawn.trans (congrArg some (hOther.unique hBears)))
        · exact .inl (hElsewhere (fun hSame => hPath (site.resolve_injective hSame)) hInsert)
      · exact .inl hStored
      · exact .inl hStored
  | first hAuthor hFounds => exact .inl (hRoot hServes)
  | next hAuthor hFollows => exact .inl (hRoot hServes)
  | hint blob =>
      have hStore := hServes.store_eq
      cases a with
      | error e =>
          rw [alteration?_error] at hStore
          obtain rfl := hStore
          exact .inl hStored
      | ok found =>
          cases found with
          | alreadyExists =>
              obtain rfl := hStore
              exact .inl hStored
          | written => exact .inl (hElsewhere (site.resolve_ne_hint hBears.ne_hint) hStore)

namespace System

variable {s s' : System}

/-- What is known of the identifiers that were drawn, as long as none was drawn twice. -/
structure Fresh (site : Site) (s : System) : Prop where
  stored : ∀ id, id ∉ drawnIn s.log → site.Unused s.store id
  logged : ∀ client id, drew id ∈ exchanged client s.log → id ∈ drawnIn s.log
  running : ∀ client run id, s.runs client = some run → run.drawn = some id →
    drew id ∈ exchanged client s.log
  apart : ∀ client other id, drew id ∈ exchanged client s.log →
    drew id ∈ exchanged other s.log → client = other
  unused : ∀ client id, drew id ∈ exchanged client s.log →
    alterations (exchanged client s.log) = [] → site.Unused s.store id
  clients : ∀ client, Unspoilt site (exchanged client s.log)
  calls : ∀ call ∈ s.calls, Unspoilt site call.exchanges

section Step

variable (h : s.Fresh site) {client : Nat}

include h

/-- Drawing an identifier that was not drawn before keeps what is known of all others. -/
theorem Fresh.draw {next : Uuid → Program Reply} (hNew : id ∉ drawnIn s.log) :
    Fresh site { s.withRun client (some ⟨op, some id, next id⟩) with
      log := s.log ++ [.answered client op .freshUuid id] } := by
  have hDrawn : drawnIn (s.log ++ [.answered client op .freshUuid id]) = drawnIn s.log ++ [id] :=
    drawnIn_append _ _
  have hMem (other : Nat) (found : Uuid) :
      drew found ∈ exchanged other (s.log ++ [.answered client op .freshUuid id]) ↔
        drew found ∈ exchanged other s.log ∨ other = client ∧ found = id := by
    rw [exchanged_answered]
    by_cases hSame : other = client
    · subst hSame
      simp [drew]
    · simp [hSame]
  have hNone (other : Nat) : alterations (exchanged other (s.log ++ [.answered client op .freshUuid id]))
      = alterations (exchanged other s.log) := by
    rw [exchanged_answered]
    split
    · next hSame =>
      rw [hSame, alterations_append]
      exact List.append_nil _
    · rfl
  refine ⟨fun found hFound => ?_, fun other found hFound => ?_, fun other run found hRun hRunDrawn => ?_,
    fun first second found hFirst hSecond => ?_, fun other found hFound hUnaltered => ?_,
    fun other => ?_, fun call hCall => ?_⟩
  · dsimp only at hFound
    rw [hDrawn] at hFound
    exact h.stored found fun hOld => hFound (List.mem_append_left _ hOld)
  · dsimp only at hFound ⊢
    rw [hDrawn]
    rcases (hMem other found).mp hFound with hOld | ⟨-, rfl⟩
    · exact List.mem_append_left _ (h.logged other found hOld)
    · exact List.mem_append_right _ (List.mem_singleton_self _)
  · refine (hMem other found).mpr ?_
    rcases runs_withRun hRun with ⟨rfl, hSame⟩ | hOld
    · cases hSame
      exact .inr ⟨rfl, (Option.some.inj hRunDrawn).symm⟩
    · exact .inl (h.running other run found hOld hRunDrawn)
  · rcases (hMem first found).mp hFirst with hOld | ⟨rfl, rfl⟩
    · rcases (hMem second found).mp hSecond with hAlso | ⟨rfl, rfl⟩
      · exact h.apart first second found hOld hAlso
      · exact absurd (h.logged first found hOld) hNew
    · rcases (hMem second found).mp hSecond with hAlso | ⟨rfl, -⟩
      · exact absurd (h.logged second found hAlso) hNew
      · rfl
  · rcases (hMem other found).mp hFound with hOld | ⟨-, rfl⟩
    · exact h.unused other found hOld ((hNone other).symm.trans hUnaltered)
    · exact h.stored found hNew
  · dsimp only
    rw [exchanged_answered]
    split
    · exact (h.clients client).append fun _ _ _ _ _ _ => nofun
    · exact h.clients other
  · rw [calls_answered] at hCall
    exact h.calls call hCall

/-- The start of an operation draws nothing. -/
theorem Fresh.start : Fresh site (s.withRun client (some (.start site op))) := by
  refine ⟨h.stored, h.logged, fun other run id hRun hDrawn => ?_, h.apart, h.unused, h.clients, h.calls⟩
  rcases runs_withRun hRun with ⟨rfl, hSame⟩ | hOld
  · cases hSame
    cases hDrawn
  · exact h.running other run id hOld hDrawn

/-- Any answer but an identifier keeps what is known. -/
theorem Fresh.answer {r : Request} {next : r.Answer → Program Reply} {a : r.Answer} {store : Memory}
    (hRun : s.runs client = some ⟨op, drawn, .request r next⟩) (hServes : Serves s.store r a store)
    (hPermitted : Permitted site s.store op drawn r) (hOther : r ≠ .freshUuid) :
    Fresh site { s.withRun client (some ⟨op, Run.drawnAfter drawn r a, next a⟩) with
      store, log := s.log ++ [.answered client op r a] } := by
  have hDrawn : drawnIn (s.log ++ [.answered client op r a]) = drawnIn s.log := by
    rw [drawnIn_append, Event.drawn?_answered_ne hOther]
    exact List.append_nil _
  have hMem (other : Nat) (id : Uuid) : drew id ∈ exchanged other (s.log ++ [.answered client op r a]) ↔
      drew id ∈ exchanged other s.log := by
    rw [exchanged_answered]
    split
    · next hSame =>
      have hNot : drew id ≠ ⟨r, a⟩ := fun hDrew => hOther (congrArg Exchange.request hDrew).symm
      rw [hSame, List.mem_append, List.mem_singleton, or_iff_left hNot]
    · exact Iff.rfl
  -- An object that is there now was there before, or the client itself drew its identifier.
  have hStored {id : Uuid} {path : String} (hBears : DefinitionPath.Bears id path)
      (hUnused : site.Unused s.store id) (hThere : store.contains (site.resolve path) = true) :
      drew id ∈ exchanged client s.log := by
    rcases contains_of_serves hPermitted hServes hBears hThere with hOld | hOwn
    · rw [hUnused path hBears] at hOld
      cases hOld
    · exact h.running client _ id hRun hOwn
  refine ⟨fun id hNew path hBears => ?_, fun other id hFound => ?_, fun other run id hFound hRunDrawn => ?_,
    fun first second id hFirst hSecond => ?_, fun other id hFound hNone path hBears => ?_,
    fun other => ?_, fun call hCall => ?_⟩
  · dsimp only at hNew ⊢
    rw [hDrawn] at hNew
    refine Bool.eq_false_iff.mpr fun hThere => hNew ?_
    exact h.logged client id (hStored hBears (h.stored id hNew) hThere)
  · dsimp only
    rw [hDrawn]
    exact h.logged other id ((hMem other id).mp hFound)
  · refine (hMem other id).mpr ?_
    rcases runs_withRun hFound with ⟨rfl, hSame⟩ | hOld
    · cases hSame
      refine h.running other _ id hRun ?_
      cases r with
      | freshUuid => exact absurd rfl hOther
      | _ => exact hRunDrawn
    · exact h.running other run id hOld hRunDrawn
  · exact h.apart first second id ((hMem first id).mp hFirst) ((hMem second id).mp hSecond)
  · have hDrew := (hMem other id).mp hFound
    dsimp only at hNone ⊢
    rw [exchanged_answered] at hNone
    split at hNone
    · next hSame =>
      subst hSame
      rw [alterations_append] at hNone
      obtain ⟨hBefore, hLast⟩ := List.append_eq_nil_iff.mp hNone
      have hStore : store = s.store := by
        rw [alterations_cons, alterations_nil, List.append_nil] at hLast
        rw [hServes.store_eq, hLast]
        rfl
      rw [hStore]
      exact h.unused other id hDrew hBefore path hBears
    · next hOther =>
      refine Bool.eq_false_iff.mpr fun hThere => hOther ?_
      exact h.apart other client id hDrew (hStored hBears (h.unused other id hDrew hNone) hThere)
  · dsimp only
    rw [exchanged_answered]
    split
    · refine (h.clients client).append fun id path blob hDrew hBears hNone hLate => ?_
      -- A creation comes too late only where something is stored.
      cases hLate
      have hAbsent := h.unused client id hDrew hNone path hBears
      rcases hServes.createNew with ⟨-, hNever, -⟩ | ⟨hThere, -, -⟩ | ⟨_, -, hNever, -⟩
      · cases hNever
      · rw [hAbsent] at hThere
        cases hThere
      · cases hNever
    · exact h.clients other
  · rw [calls_answered] at hCall
    exact h.calls call hCall

/-- The end of an operation makes a call of what its client exchanged. -/
theorem Fresh.finish {run : Run} {outcome : Except Error Reply} :
    Fresh site { s.withRun client none with
      handles := s.handles ++ run.handout outcome,
      log := s.log ++ [.ended client run.operation outcome] } := by
  have hDrawn : drawnIn (s.log ++ [.ended client run.operation outcome]) = drawnIn s.log := by
    rw [drawnIn_append]
    exact List.append_nil _
  -- Whoever has drawn something is another client, whose exchanges are as before.
  have hOther {other : Nat} {id : Uuid}
      (hDrew : drew id ∈ exchanged other (s.log ++ [.ended client run.operation outcome])) :
      exchanged other (s.log ++ [.ended client run.operation outcome]) = exchanged other s.log := by
    rw [exchanged_ended] at hDrew ⊢
    split at hDrew
    · cases hDrew
    · next hOther => exact if_neg hOther
  have hMem {other : Nat} {id : Uuid}
      (hDrew : drew id ∈ exchanged other (s.log ++ [.ended client run.operation outcome])) :
      drew id ∈ exchanged other s.log := by
    rwa [hOther hDrew] at hDrew
  refine ⟨fun id hNew => ?_, fun other id hFound => ?_, fun other found id hFound hRunDrawn => ?_,
    fun first second id hFirst hSecond => ?_, fun other id hFound hNone => ?_, fun other => ?_,
    fun call hCall => ?_⟩
  · dsimp only at hNew
    rw [hDrawn] at hNew
    exact h.stored id hNew
  · dsimp only
    rw [hDrawn]
    exact h.logged other id (hMem hFound)
  · have hUpdate : Function.update s.runs client none other = some found := hFound
    have hAnother : other ≠ client := by
      rintro rfl
      rw [Function.update_self] at hUpdate
      cases hUpdate
    rw [Function.update_of_ne hAnother] at hUpdate
    dsimp only
    rw [exchanged_ended, if_neg hAnother]
    exact h.running other found id hUpdate hRunDrawn
  · exact h.apart first second id (hMem hFirst) (hMem hSecond)
  · dsimp only at hNone
    rw [hOther hFound] at hNone
    exact h.unused other id (hMem hFound) hNone
  · dsimp only
    rw [exchanged_ended]
    split
    · exact unspoilt_nil site
    · exact h.clients other
  · rw [calls_ended] at hCall
    rcases List.mem_append.mp hCall with hOld | hNew
    · exact h.calls call hOld
    · cases List.mem_singleton.mp hNew
      exact h.clients client

end Step

theorem Fresh.step (h : s.Fresh site) {published : List Publication} (hSound : s.Sound site published)
    (hStep : Step site s s') (hDistinct : (drawnIn s'.log).Nodup) : s'.Fresh site := by
  cases hStep with
  | start hIdle hKnown hFits => exact h.start
  | finish hRun hOutcome => exact h.finish
  | @answer client op drawn r next a store hRun hServes =>
      have hKeeps := (keeps_request r next).mp ((hSound.runs client _ hRun).keeps hSound.records)
      by_cases hDraw : r = .freshUuid
      · subst hDraw
        have hStore := hServes.store_eq
        have hNew : a ∉ drawnIn s.log := by
          dsimp only at hDistinct
          rw [drawnIn_append] at hDistinct
          obtain ⟨-, -, hApart⟩ := List.nodup_append.mp hDistinct
          exact fun hOld => hApart a hOld a (List.mem_singleton_self _) rfl
        rw [hStore]
        exact h.draw hNew
      · exact h.answer hRun hServes hKeeps.1 hDraw

theorem Step.drawnIn_prefix (hStep : Step site s s') : drawnIn s.log <+: drawnIn s'.log := by
  cases hStep with
  | start hIdle hKnown hFits => exact List.prefix_rfl
  | answer hRun hServes => exact ⟨_, (drawnIn_append _ _).symm⟩
  | finish hRun hOutcome => exact ⟨_, (drawnIn_append _ _).symm⟩

/-- As long as no identifier was drawn twice, no client found an object where it wrote its first. -/
theorem Reachable.fresh (hReach : Reachable site s) (hDistinct : (drawnIn s.log).Nodup) :
    s.Fresh site := by
  induction hReach with
  | refl =>
      exact ⟨fun _ _ _ _ => rfl, fun _ _ hMem => (nomatch hMem), fun _ _ _ hRun => (nomatch hRun),
        fun _ _ _ hMem => (nomatch hMem), fun _ _ hMem => (nomatch hMem),
        fun _ => unspoilt_nil site, fun _ hMem => (nomatch hMem)⟩
  | tail hBefore hStep ih =>
      obtain ⟨published, hSound⟩ := Reachable.sound hBefore
      exact (ih (hDistinct.sublist hStep.drawnIn_prefix.sublist)).step hSound hStep hDistinct

end System

end SnapshotCatalog
