import SnapshotCatalog.Proofs.Schedules
import SnapshotCatalog.Proofs.Territory
/-!
Lakehouses in different directories of one store do not interfere. What the clients of one ask is
about its own keys, what they are told depends on the objects under these keys, and no client of the
other changes any of them. So both can be scheduled in any interleaving, and all that the clients of
one get to see is what they would see if the other did not exist.
-/
namespace SnapshotCatalog

open Storage (Memory Call)

/-! ### Requests within a lakehouse -/

/-- Two stores hold the same objects under the keys of a lakehouse. -/
def Site.Shares (site : Site) (m m' : Memory) : Prop := ∀ key, site.Owns key → m.get? key = m'.get? key

variable {site : Site} {m m' : Memory}

/-- Inserting an object under one key keeps what two stores share. -/
theorem Site.Shares.insert (h : site.Shares m m') (key : String) (blob : Storage.Blob) :
    site.Shares (m.insert key blob) (m'.insert key blob) := by
  intro other hOther
  by_cases hSame : other = key
  · subst hSame
    rw [TextMap.get?_insert_self, TextMap.get?_insert_self]
  · rw [TextMap.get?_insert_of_ne _ hSame, TextMap.get?_insert_of_ne _ hSame]
    exact h other hOther

/-- A call within a lakehouse is answered by the objects under its keys, and so are those that are there
afterwards. -/
theorem Site.Shares.answer {c : Call} (h : site.Shares m m') (hWithin : (Request.call c).Within site) :
    (Memory.answer c m).1 = (Memory.answer c m').1 ∧
      site.Shares (Memory.answer c m).2 (Memory.answer c m').2 := by
  cases c with
  | get key =>
      rw [Memory.answer, Memory.answer, h key hWithin]
      split <;> exact ⟨rfl, h⟩
  | head key =>
      rw [Memory.answer, Memory.answer, h key hWithin]
      exact ⟨rfl, h⟩
  | put key blob mode =>
      rw [Memory.answer, Memory.answer, TextMap.contains, TextMap.contains, h key hWithin]
      split
      · exact ⟨rfl, h⟩
      · exact ⟨rfl, h.insert key blob⟩
  | delete key => exact hWithin.elim
  | list start => exact hWithin.elim

/-- A call within a lakehouse leaves all other keys alone. -/
theorem Storage.Memory.get?_answer_outside {c : Call} (hWithin : (Request.call c).Within site)
    {key : String} (hKey : ¬ site.Owns key) : (answer c m).2.get? key = m.get? key := by
  cases c with
  | get other => rw [answer_get_snd]
  | head other => rfl
  | put other blob mode =>
      have hOther : key ≠ other := by
        rintro rfl
        exact hKey hWithin
      rw [answer]
      split
      · rfl
      · exact TextMap.get?_insert_of_ne m hOther blob
  | delete other => exact hWithin.elim
  | list start => exact hWithin.elim

namespace Desk

variable {r : Request}

/-- A desk whose store was replaced by one that shares the keys of a lakehouse answers the requests
within it alike. -/
theorem answer_shares (supply : Supply) (d : Desk) (h : site.Shares m d.store) (hWithin : r.Within site) :
    (answer site supply (fun _ => .none) r { d with store := m }).1 =
        (answer site supply (fun _ => .none) r d).1 ∧
      site.Shares (answer site supply (fun _ => .none) r { d with store := m }).2.store
        (answer site supply (fun _ => .none) r d).2.store := by
  cases r with
  | call c =>
      rw [answer_call_undisturbed, answer_call_undisturbed]
      exact h.answer hWithin
  | freshUuid => exact ⟨rfl, h⟩
  | freshTransactionId => exact ⟨rfl, h⟩
  | clock => exact ⟨rfl, h⟩
  | record measurement => exact ⟨rfl, h⟩

theorem get?_answer_outside {supply : Supply} {d : Desk} (hWithin : r.Within site) {key : String}
    (hKey : ¬ site.Owns key) :
    (answer site supply (fun _ => .none) r d).2.store.get? key = d.store.get? key := by
  cases r with
  | call c =>
      rw [answer_call_undisturbed]
      exact Memory.get?_answer_outside hWithin hKey
  | _ => rfl

end Desk

/-! ### One lakehouse among others -/

namespace System

variable {supply : Supply} {alone : System}

/-- In a store that shares the keys of a lakehouse, its client goes on by the same step. Other keys are
left alone. -/
theorem goOn_shares (hReach : Reachable site alone) (h : site.Shares m alone.store) (client : Nat) :
    ∃ after, { alone with store := m }.goOn site supply client =
        { alone.goOn site supply client with store := after } ∧
      site.Shares after (alone.goOn site supply client).store ∧
      ∀ key, ¬ site.Owns key → after.get? key = m.get? key := by
  rw [goOn, goOn]
  dsimp only
  cases hRun : alone.runs client with
  | none => exact ⟨m, rfl, h, fun _ _ => rfl⟩
  | some run =>
      obtain ⟨op, drawn, rest⟩ := run
      cases rest with
      | done reply => exact ⟨m, rfl, h, fun _ _ => rfl⟩
      | fail e => exact ⟨m, rfl, h, fun _ _ => rfl⟩
      | request r next =>
          have hWithin := hReach.within hRun
          have hDesk : desk { alone with store := m } = { alone.desk with store := m } := rfl
          obtain ⟨hReply, hStore⟩ := Desk.answer_shares supply alone.desk h hWithin
          refine ⟨_, ?_, hStore, fun key hKey => Desk.get?_answer_outside hWithin hKey⟩
          dsimp only
          rw [hDesk, hReply]
          rfl

/-- The same goes for every move. -/
theorem move_shares (hReach : Reachable site alone) (h : site.Shares m alone.store) (next : Move) :
    ∃ after, { alone with store := m }.move site supply next =
        { alone.move site supply next with store := after } ∧
      site.Shares after (alone.move site supply next).store ∧
      ∀ key, ¬ site.Owns key → after.get? key = m.get? key := by
  cases next with
  | goOn client => exact goOn_shares hReach h client
  | start client op =>
      refine ⟨m, ?_, ?_, fun _ _ => rfl⟩
      · rw [move, move]
        dsimp only
        cases alone.runs client <;> cases op.on (alone.handles[·]?) <;> rfl
      · rw [move]
        cases alone.runs client <;> cases op.on (alone.handles[·]?) <;> exact h

/-- The clients of a lakehouse have done, hold and were told the same in both states, and the objects
under its keys are the same. -/
structure LooksLike (site : Site) (s alone : System) : Prop where
  runs : s.runs = alone.runs
  handles : s.handles = alone.handles
  log : s.log = alone.log
  objects : site.Shares s.store alone.store

namespace LooksLike

variable {s : System}

theorem refl (site : Site) (s : System) : s.LooksLike site s := ⟨rfl, rfl, rfl, fun _ _ => rfl⟩

theorem eq_withStore (h : s.LooksLike site alone) : s = { alone with store := s.store } := by
  obtain ⟨store, handles, runs, log⟩ := s
  obtain ⟨rfl, rfl, rfl, -⟩ := h
  rfl

/-- What happens under other keys makes no difference. -/
theorem beside (h : s.LooksLike site alone) (hShares : site.Shares m s.store) :
    LooksLike site { s with store := m } alone :=
  ⟨h.runs, h.handles, h.log, fun key hKey => (hShares key hKey).trans (h.objects key hKey)⟩

/-- A move takes alike states to alike states and leaves other keys alone. -/
theorem move (h : s.LooksLike site alone) (supply : Supply) (hReach : Reachable site alone)
    (next : Move) :
    (s.move site supply next).LooksLike site (alone.move site supply next) ∧
      ∀ key, ¬ site.Owns key → (s.move site supply next).store.get? key = s.store.get? key := by
  obtain ⟨after, hAfter, hShares, hOutside⟩ := move_shares hReach h.objects next
  rw [← h.eq_withStore] at hAfter
  rw [hAfter]
  exact ⟨⟨rfl, rfl, rfl, hShares⟩, hOutside⟩

end LooksLike

end System

/-! ### Two lakehouses -/

/-- The operations that are started have definitions of a size that can be encoded. -/
def Move.Fits : Move → Prop
  | .start _ op => op.Fits
  | .goOn _ => True

/-- Two lakehouses in one store, with the clients of each. Both show the one store. -/
structure Neighbours where
  first : System
  second : System

namespace Neighbours

def initial : Neighbours := ⟨.initial, .initial⟩

/-- A move of a client of the first or the second lakehouse. What it does to the store, all others see. -/
def move (a b : Site) (supply other : Supply) (n : Neighbours) : Move ⊕ Move → Neighbours
  | .inl m =>
    let first := n.first.move a supply m
    ⟨first, { n.second with store := first.store }⟩
  | .inr m =>
    let second := n.second.move b other m
    ⟨{ n.first with store := second.store }, second⟩

/-- The state after a schedule of the moves of both. -/
def play (a b : Site) (supply other : Supply) (moves : List (Move ⊕ Move)) : Neighbours :=
  moves.foldl (move a b supply other) initial

variable {a b : Site} {n : Neighbours} {first second : System}

/-- Each of two lakehouses looks as if it were alone. -/
structure Apart (a b : Site) (n : Neighbours) (first second : System) : Prop where
  left : n.first.LooksLike a first
  right : n.second.LooksLike b second
  shared : n.first.store = n.second.store

namespace Apart

/-- A move of a client of the first lakehouse is the move that it would make alone. -/
theorem move_left (h : n.Apart a b first second) (supply other : Supply) (hOther : a ≠ b)
    (hReach : System.Reachable a first) (m : Move) :
    (n.move a b supply other (.inl m)).Apart a b (first.move a supply m) second := by
  obtain ⟨hFirst, hOutside⟩ := h.left.move supply hReach m
  refine ⟨hFirst, h.right.beside fun key hKey => ?_, rfl⟩
  rw [hOutside key (hKey.apart hOther.symm), h.shared]

/-- So is a move of a client of the second one. -/
theorem move_right (h : n.Apart a b first second) (supply other : Supply) (hOther : a ≠ b)
    (hReach : System.Reachable b second) (m : Move) :
    (n.move a b supply other (.inr m)).Apart a b first (second.move b other m) := by
  obtain ⟨hSecond, hOutside⟩ := h.right.move other hReach m
  refine ⟨h.left.beside fun key hKey => ?_, hSecond, rfl⟩
  rw [hOutside key (hKey.apart hOther), ← h.shared]

/-- By induction on the schedule: both stay apart, each where its own moves lead it. -/
theorem play (h : n.Apart a b first second) (supply other : Supply) (hOther : a ≠ b)
    (hFirst : System.Reachable a first) (hSecond : System.Reachable b second) (moves : List (Move ⊕ Move))
    (hFits : ∀ m ∈ moves, Sum.elim Move.Fits Move.Fits m) :
    (moves.foldl (Neighbours.move a b supply other) n).Apart a b
      ((moves.filterMap Sum.getLeft?).foldl (System.move a supply) first)
      ((moves.filterMap Sum.getRight?).foldl (System.move b other) second) := by
  induction moves generalizing n first second with
  | nil => exact h
  | cons m rest ih =>
      have hRest : ∀ m ∈ rest, Sum.elim Move.Fits Move.Fits m := fun m hMem =>
        hFits m (List.mem_cons_of_mem _ hMem)
      cases m with
      | inl m =>
          have hStep : System.Steps a first (first.move a supply m) :=
            System.steps_move fun client op hSame => by
              subst hSame
              exact hFits _ List.mem_cons_self
          exact ih (h.move_left supply other hOther hFirst m) (hFirst.trans hStep) hSecond hRest
      | inr m =>
          have hStep : System.Steps b second (second.move b other m) :=
            System.steps_move fun client op hSame => by
              subst hSame
              exact hFits _ List.mem_cons_self
          exact ih (h.move_right supply other hOther hSecond m) hFirst (hSecond.trans hStep) hRest

end Apart

/-- In any interleaving of the clients of two lakehouses that lie in different directories of one store,
those of each have done, hold and were told exactly what they would alone. -/
theorem play_isolated (hOther : a ≠ b) (supply other : Supply) (moves : List (Move ⊕ Move))
    (hFits : ∀ m ∈ moves, Sum.elim Move.Fits Move.Fits m) :
    (play a b supply other moves).first.LooksLike a
        (System.play a supply (moves.filterMap Sum.getLeft?)) ∧
      (play a b supply other moves).second.LooksLike b
        (System.play b other (moves.filterMap Sum.getRight?)) := by
  have hStart : initial.Apart a b System.initial System.initial := ⟨.refl _ _, .refl _ _, rfl⟩
  have hEnd := hStart.play supply other hOther .refl .refl moves hFits
  exact ⟨hEnd.left, hEnd.right⟩

/-- The race in two lakehouses at once, move by move. -/
def twoRaces : List (Move ⊕ Move) := Move.race.flatMap fun m => [.inl m, .inr m]

theorem fits_twoRaces : ∀ m ∈ twoRaces, Sum.elim Move.Fits Move.Fits m := by
  have hRace : ∀ m ∈ Move.race, m.Fits := by
    intro m hMem
    cases m with
    | start client op => exact Move.fits_race hMem
    | goOn client => trivial
  intro m hMem
  obtain ⟨next, hNext, hSide⟩ := List.mem_flatMap.mp hMem
  rcases List.mem_cons.mp hSide with rfl | hSide
  · exact hRace next hNext
  · rw [List.mem_singleton.mp hSide]
    exact hRace next hNext

/-- Two lakehouses race, one of which lies where the other scatters its files, with the same identifiers
and at different times. Each publishes its two versions as it would alone. -/
theorem play_isolated_nested : ∃ outer inner, (Site.below "/a").toOption = some outer ∧
    (Site.below "a/0000/0000/0000/").toOption = some inner ∧ outer ≠ inner ∧
    (play outer inner (.counting 5) (.counting 6) twoRaces).first.LooksLike outer
      (System.play outer (.counting 5) Move.race) ∧
    (System.published outer (System.play outer (.counting 5) Move.race)).map (·.1) = [0, 1] := by
  have hLeft : twoRaces.filterMap Sum.getLeft? = Move.race := by
    rw [twoRaces, List.filterMap_flatMap]
    exact List.flatMap_singleton' Move.race
  refine ⟨⟨some "a"⟩, ⟨some "a/0000/0000/0000"⟩, by decide +kernel, by decide +kernel,
    by decide, ?_, by decide +kernel⟩
  have hIsolated := (play_isolated (a := ⟨some "a"⟩) (b := ⟨some "a/0000/0000/0000"⟩) (by decide)
    (.counting 5) (.counting 6) twoRaces fits_twoRaces).1
  rw [hLeft] at hIsolated
  exact hIsolated

end Neighbours

end SnapshotCatalog
