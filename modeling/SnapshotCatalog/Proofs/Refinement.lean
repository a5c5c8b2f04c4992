import SnapshotCatalog.Proofs.HintIndependence
import SnapshotCatalog.Proofs.Questions
import SnapshotCatalog.Proofs.Serialization
/-!
A transaction behaves as the catalog that it shows. Whatever version it begins at, the catalog is
what the committed changes up to that version made out of nothing, and from there on every call
answers what the catalog answers, in its words and with its errors.
-/
namespace SnapshotCatalog

open Storage (Memory)
open Lakehouse

/-! ### Definitions at fresh paths -/

namespace Desk

variable {α : Type} {site : Site} {supply : Supply} {mischief : Nat → Mischief} {w w' : Desk}
  {count : Nat} {path : Uuid → String}

/-- The next identifiers are distinct, and nothing that is stored bears one of them. -/
structure Fresh (site : Site) (supply : Supply) (w : Desk) (count : Nat) : Prop where
  distinct : ∀ i j, i < j → j < count → supply.uuid (w.uuids + i) ≠ supply.uuid (w.uuids + j)
  unused : ∀ i, i < count → ∀ path, DefinitionPath.Bears (supply.uuid (w.uuids + i)) path →
    w.store.get? (site.resolve path) = none

namespace Fresh

theorem less (h : w.Fresh site supply (count + 1)) : w.Fresh site supply count :=
  ⟨fun i j hLess hCount => h.distinct i j hLess (Nat.lt_succ_of_lt hCount),
    fun i hCount => h.unused i (Nat.lt_succ_of_lt hCount)⟩

/-- Without a drawing the identifiers stay fresh. -/
theorem same (h : w.Fresh site supply count) (hUuids : w'.uuids = w.uuids)
    (hStore : site.Matches w.store w'.store) : w'.Fresh site supply count := by
  refine ⟨fun i j hLess hCount => ?_, fun i hCount path hBears => ?_⟩
  · rw [hUuids]
    exact h.distinct i j hLess hCount
  · rw [hUuids] at hBears
    rw [← hStore _ (site.resolve_ne_hint hBears.ne_hint)]
    exact h.unused i hCount path hBears

/-- After a drawing those beyond the drawn one are fresh, whatever was stored for that one. -/
theorem next (h : w.Fresh site supply (count + 1)) (hUuids : w'.uuids = w.uuids + 1)
    (hStore : ∀ id path, id ≠ supply.uuid w.uuids → DefinitionPath.Bears id path →
      w'.store.get? (site.resolve path) = w.store.get? (site.resolve path)) :
    w'.Fresh site supply count := by
  have hPlace (i : Nat) : w'.uuids + i = w.uuids + (i + 1) := by omega
  refine ⟨fun i j hLess hCount => ?_, fun i hCount path hBears => ?_⟩
  · rw [hPlace, hPlace]
    exact h.distinct _ _ (Nat.succ_lt_succ hLess) (Nat.succ_lt_succ hCount)
  · rw [hPlace] at hBears
    have hOther := h.distinct 0 (i + 1) (Nat.succ_pos i) (Nat.succ_lt_succ hCount)
    rw [hStore _ path hOther.symm hBears]
    exact h.unused (i + 1) (Nat.succ_lt_succ hCount) path hBears

/-- Whether nothing bears one of the next identifiers can be read off the keys of the store. -/
theorem of_keys (hDistinct : ∀ j < count, ∀ i < j,
      supply.uuid (w.uuids + i) ≠ supply.uuid (w.uuids + j))
    (hKeys : (w.store.keys.all fun key => (List.range count).all fun i =>
      !Text.endsWith key ((supply.uuid (w.uuids + i)).text ++ DefinitionPath.suffix)) = true) :
    w.Fresh site supply count := by
  refine ⟨fun i j hLess hCount => hDistinct j hCount i hLess, fun i hCount path hBears => ?_⟩
  cases hGet : w.store.get? (site.resolve path) with
  | none => rfl
  | some blob =>
      have hMem := w.store.mem_keys_iff.mpr ⟨blob, hGet⟩
      have hEnds := List.all_eq_true.mp (List.all_eq_true.mp hKeys _ hMem) i
        (List.mem_range.mpr hCount)
      obtain ⟨front, rfl⟩ := hBears
      rw [site.resolve_eq, ← String.append_assoc, Text.endsWith, Text.bytes_append (site.keyStart ++ front),
        List.isSuffixOf_iff_suffix.mpr (List.suffix_append _ _)] at hEnds
      cases hEnds

end Fresh

/-- A definition whose path is not accepted is not stored, but an identifier was drawn for it. -/
theorem run_define_rejected [Definition α] (mischief : Nat → Mischief) (t : Transaction)
    (key : String) (x : α) {e : Error}
    (hCheck : Path.check (path (supply.uuid w.uuids)) = .error e) :
    ∃ w', (define site t key path x).run (answer site supply mischief) w = (.error e, w') ∧
      w'.uuids = w.uuids + 1 ∧ site.Matches w.store w'.store := by
  refine ⟨{ w.disturb site mischief with uuids := w.uuids + 1 }, ?_, rfl, .tamper _ _⟩
  show ((Definition.store site (path (supply.uuid w.uuids)) x).bind _).run _ _ = _
  rw [Definition.store, Site.create, Site.key, hCheck]
  rfl

/-- What is created at an accepted path other than the hint, where there is nothing, is stored. -/
theorem run_create (supply : Supply) (mischief : Nat → Mischief) (w : Desk) {place : String}
    (blob : Storage.Blob) (hHint : place ≠ Hint.path)
    (hCheck : Path.check place = .ok ()) (hFree : w.store.get? (site.resolve place) = none) :
    ∃ w', (site.create place blob).run (answer site supply mischief) w = (.ok .written, w') ∧
      w'.uuids = w.uuids ∧ site.Matches (w.store.insert (site.resolve place) blob) w'.store := by
  have hPath := site.resolve_ne_hint hHint
  have hAvoids : (Request.call (.put (site.resolve place) blob .createNew)).AvoidsHint site := hPath
  have hMatches : site.Matches w.store (w.disturb site mischief).store := .tamper _ _
  have hAbsent : (w.disturb site mischief).store.contains (site.resolve place) = false := by
    rw [TextMap.contains, ← hMatches _ hPath, hFree]
    rfl
  have hCall : answer site supply mischief (.call (.put (site.resolve place) blob .createNew)) w =
      (.ok .written, { w.disturb site mischief with
        store := (w.disturb site mischief).store.insert (site.resolve place) blob }) := by
    rw [answer_call hAvoids, answerCall, answer_createNew, hAbsent]
    rfl
  refine ⟨{ w.disturb site mischief with
    store := (w.disturb site mischief).store.insert (site.resolve place) blob }, ?_, rfl,
    hMatches.insert (site.resolve place) blob⟩
  rw [Site.create, site.key_of_check hCheck]
  show (Program.call _).run _ _ = _
  rw [Program.run_call, hCall]

/-- A definition at a fresh path that is accepted is stored there, and the row names the path. -/
theorem run_define_accepted [Definition α] (mischief : Nat → Mischief) (t : Transaction)
    (key : String) (x : α)
    (hBears : DefinitionPath.Bears (supply.uuid w.uuids) (path (supply.uuid w.uuids)))
    (hCheck : Path.check (path (supply.uuid w.uuids)) = .ok ())
    (hFree : w.store.get? (site.resolve (path (supply.uuid w.uuids))) = none) :
    ∃ w', (define site t key path x).run (answer site supply mischief) w =
        (.ok (t.withRunning (t.running.withRow key (path (supply.uuid w.uuids)))), w') ∧
      w'.uuids = w.uuids + 1 ∧
      site.Matches (w.store.insert (site.resolve (path (supply.uuid w.uuids)))
        (.bytes (Definition.encode x))) w'.store := by
  have hStore : site.Matches w.store (w.disturb site mischief).store := .tamper _ _
  have hPath := site.resolve_ne_hint hBears.ne_hint
  rw [hStore _ hPath] at hFree
  obtain ⟨w', hRun, hUuids, hMatches⟩ := run_create supply mischief
    { w.disturb site mischief with uuids := w.uuids + 1 } (.bytes (Definition.encode x))
    hBears.ne_hint hCheck hFree
  refine ⟨w', ?_, hUuids, (hStore.insert _ _).trans hMatches⟩
  show ((Definition.store site (path (supply.uuid w.uuids)) x).bind _).run _
    { w.disturb site mischief with uuids := w.uuids + 1 } = _
  rw [Definition.store, Program.bind_eq, Program.bind_assoc, Program.run_bind, hRun]
  rfl

end Desk

/-! ### Transactions and ledgers -/

section Calls

variable {σ : Type}

/-- Makes a call on a transaction. A change that is made answers nothing, and a call that fails
leaves the transaction as it was. -/
def Transaction.call (site : Site) (answer : (r : Request) → σ → r.Answer × σ) (t : Transaction)
    (w : σ) : Transaction.Call → Except Error (Option Reply) × Transaction × σ
  | .ask q =>
    let (outcome, w) := (q.program site t).run answer w
    (outcome.map some, t, w)
  | .make change =>
    match (change.program site t).run answer w with
    | (.ok t, w) => (.ok none, t, w)
    | (.error e, w) => (.error e, t, w)

/-- The answers to calls that are made one after another on a transaction. -/
def Transaction.answers (site : Site) (answer : (r : Request) → σ → r.Answer × σ) (t : Transaction)
    (w : σ) : List Transaction.Call → List (Except Error (Option Reply))
  | [] => []
  | call :: rest =>
    let (reply, t, w) := t.call site answer w call
    reply :: answers site answer t w rest

end Calls

/-- A change that brings no definition creates nothing. -/
theorem Change.placeable_of_none {change : Change} (h : change.definition? = none) (id : Uuid) :
    change.placeable id = .ok () := by
  cases change <;> first | rfl | cases h

/-- A path that a change asks for is accepted if it is one of an object that is created and the path
is accepted, or one of an object that is there already. -/
theorem Depicts.placeable_eq {site : Site} {m : Memory} {limits : KeyLimits} {rows : TextMap String}
    {c : Catalog} (h : Depicts site m limits rows c) {change : Change}
    (hAllowed : c.allows limits change = .ok ()) {data : List UInt8} {path : Uuid → String}
    (hDefinition : change.definition? = some (data, path)) (id : Uuid) :
    change.placeable id = Path.check (path id) := by
  cases change with
  | createNamespace ns d => cases hDefinition; rfl
  | alterNamespace ns d =>
      cases hDefinition
      obtain ⟨shelf, hShelf, -⟩ := map_eq_ok.mp hAllowed
      have hData := data?_ofNamespace c ns
      rw [(Catalog.shelf_eq_ok_iff.mp hShelf).2] at hData
      exact ((h.accepted _ _ hData).2 id).symm
  | dropNamespace ns => cases hDefinition
  | createTable ns table d => cases hDefinition; rfl
  | alterTable ns table d =>
      cases hDefinition
      obtain ⟨definition, hTable, -⟩ := map_eq_ok.mp hAllowed
      obtain ⟨-, shelf, hShelf, hTable⟩ := Catalog.table_eq_ok_iff.mp hTable
      have hData := data?_ofTable hShelf table
      rw [hTable] at hData
      exact ((h.accepted _ _ hData).2 id).symm
  | dropTable ns table => cases hDefinition

/-- At a desk where as many identifiers are fresh, a transaction shows the catalog of a ledger. -/
structure Mirrors (site : Site) (supply : Supply) (d : LakehouseDef) (t : Transaction) (w : Desk)
    (l : Ledger) (left : Nat) : Prop where
  governs : Governs site w.store t.running.lakehouseDefPath d
  depicts : Depicts site w.store d.keyLimits t.running.rows l.catalog
  drawn : w.uuids = l.drawn
  fresh : w.Fresh site supply left

namespace Mirrors

variable {α : Type} {site : Site} {supply : Supply} {mischief : Nat → Mischief} {d : LakehouseDef}
  {t : Transaction} {w w' : Desk} {l : Ledger} {left : Nat} {change : Change}

theorem less (h : Mirrors site supply d t w l (left + 1)) : Mirrors site supply d t w l left :=
  ⟨h.governs, h.depicts, h.drawn, h.fresh.less⟩

/-- Nothing is different where nothing but the hint is. -/
theorem same (h : Mirrors site supply d t w l left) (hUuids : w'.uuids = w.uuids)
    (hStore : site.Matches w.store w'.store) : Mirrors site supply d t w' l left :=
  ⟨h.governs.grows hStore.grows, h.depicts.grows hStore.grows, hUuids.trans h.drawn,
    h.fresh.same hUuids hStore⟩

/-- A mutation whose definition was stored leads from the catalog to the changed one. -/
theorem touch (h : Mirrors site supply d t w l (left + 1)) {mutation : Mutation}
    (hAllowed : l.catalog.allows d.keyLimits mutation.change = .ok ())
    (hGrows : site.Grows w.store w'.store) (hStored : mutation.Stored site w'.store)
    (hFresh : w'.Fresh site supply left) :
    Mirrors site supply d
      (t.withRunning (mutation.touch t.running (mutation.change.slot.key d.keyLimits))) w'
      ⟨l.catalog.after mutation.change, w'.uuids⟩ left := by
  refine ⟨?_, (h.depicts.grows hGrows).touch hAllowed hStored, rfl, hFresh⟩
  show Governs site w'.store (mutation.touch t.running _).lakehouseDefPath d
  rw [Mutation.lakehouseDefPath_touch]
  exact h.governs.grows hGrows

/-- A row is removed as the catalog has it. -/
theorem perform_removal (h : Mirrors site supply d t w l (left + 1))
    (hAllowed : l.catalog.allows d.keyLimits change = .ok ()) (hNone : change.definition? = none) :
    Mirrors site supply d (remove t (change.slot.key d.keyLimits)) w
      ⟨l.catalog.after change, l.drawn⟩ left := by
  have hStored : (⟨change, none⟩ : Mutation).Stored site w.store := by
    intro data path hSome
    cases hNone.symm.trans hSome
  have hTouch : (⟨change, none⟩ : Mutation).touch t.running (change.slot.key d.keyLimits) =
      t.running.withoutRow (change.slot.key d.keyLimits) := by
    rw [Mutation.touch, Mutation.place?, hNone]
    rfl
  have hMirrors := h.touch hAllowed (.refl _) hStored h.fresh.less
  rw [hTouch, h.drawn] at hMirrors
  exact hMirrors

/-- A definition at a fresh path that is accepted is brought as the catalog has it. -/
theorem perform_definition [Definition α] (h : Mirrors site supply d t w l (left + 1))
    (hAllowed : l.catalog.allows d.keyLimits change = .ok ()) {x : α} {path : Uuid → String}
    (hDefinition : change.definition? = some (Definition.encode x, path))
    (hFits : (Definition.encode x).length < UInt64.size)
    (hCheck : Path.check (path (supply.uuid l.drawn)) = .ok ()) :
    ∃ t' w', (define site t (change.slot.key d.keyLimits) path x).run
        (Desk.answer site supply mischief) w = (.ok t', w') ∧
      Mirrors site supply d t' w' ⟨l.catalog.after change, l.drawn + 1⟩ left := by
  rw [← h.drawn] at hCheck
  have hBears := Change.bears_of_definition hDefinition (supply.uuid w.uuids)
  have hFree : w.store.get? (site.resolve (path (supply.uuid w.uuids))) = none :=
    h.fresh.unused 0 (Nat.succ_pos left) _ hBears
  obtain ⟨w', hRun, hUuids, hMatches⟩ := 
    Desk.run_define_accepted mischief t (change.slot.key d.keyLimits) x hBears hCheck hFree
  have hPath := site.resolve_ne_hint hBears.ne_hint
  have hGrows : site.Grows w.store w'.store := (Site.Grows.insert hFree _).trans hMatches.grows
  have hStored : (⟨change, some (supply.uuid w.uuids)⟩ : Mutation).Stored site w'.store := by
    intro data path' hSome
    cases hDefinition.symm.trans hSome
    exact ⟨hFits, _, rfl, hCheck, hMatches.grows _ _ hPath (w.store.get?_insert_self _ _)⟩
  have hFresh : w'.Fresh site supply left := by
    refine h.fresh.next hUuids fun id other hId hOther => ?_
    have hOtherPath : site.resolve other ≠ site.resolve (path (supply.uuid w.uuids)) := by
      intro hSame
      rw [site.resolve_injective hSame] at hOther
      exact hId (hOther.unique hBears)
    rw [← hMatches _ (site.resolve_ne_hint hOther.ne_hint),
      TextMap.get?_insert_of_ne _ hOtherPath]
  have hTouch : (⟨change, some (supply.uuid w.uuids)⟩ : Mutation).touch t.running
      (change.slot.key d.keyLimits) =
        t.running.withRow (change.slot.key d.keyLimits) (path (supply.uuid w.uuids)) := by
    rw [Mutation.touch, Mutation.place?, hDefinition]
    rfl
  have hMirrors := h.touch hAllowed hGrows hStored hFresh
  rw [hTouch, hUuids, h.drawn] at hMirrors
  rw [h.drawn] at hRun
  exact ⟨_, w', hRun, hMirrors⟩

/-- A definition whose path is not accepted leaves everything as it was, but an identifier was drawn
for it. -/
theorem perform_rejected [Definition α] (h : Mirrors site supply d t w l (left + 1)) (key : String)
    (x : α) {path : Uuid → String} {e : Error}
    (hCheck : Path.check (path (supply.uuid l.drawn)) = .error e) :
    ∃ w', (define site t key path x).run (Desk.answer site supply mischief) w = (.error e, w') ∧
      Mirrors site supply d t w' { l with drawn := l.drawn + 1 } left := by
  rw [← h.drawn] at hCheck
  obtain ⟨w', hRun, hUuids, hMatches⟩ := Desk.run_define_rejected mischief t key x hCheck
  refine ⟨w', hRun, h.governs.grows hMatches.grows, h.depicts.grows hMatches.grows, ?_, ?_⟩
  · rw [hUuids, h.drawn]
  · exact h.fresh.next hUuids fun id other _ hOther =>
      (hMatches _ (site.resolve_ne_hint hOther.ne_hint)).symm

/-- A change is carried out on the transaction as on the catalog, or refused as the catalog refuses
it. -/
theorem make (h : Mirrors site supply d t w l (left + 1))
    (hFits : ∀ data path, change.definition? = some (data, path) → data.length < UInt64.size) :
    (t.call site (Desk.answer site supply mischief) w (.make change)).1 =
        (l.call d supply.uuid (.make change)).1 ∧
      Mirrors site supply d (t.call site (Desk.answer site supply mischief) w (.make change)).2.1
        (t.call site (Desk.answer site supply mischief) w (.make change)).2.2
        (l.call d supply.uuid (.make change)).2 left := by
  have hLook : Yields (Desk.answer site supply mischief) (w.Alike site ·)
      (look site t change.target) (change.target d.keyLimits t.running) :=
    (Desk.shows w).yields_of_finds (h.governs.finds_look change.target)
  have hAgrees := h.depicts.agrees_target change
  obtain ⟨hFound, hAlike⟩ := hLook w (.refl w)
  have hProgram := Program.run_bind (Desk.answer site supply mischief) (look site t change.target)
    (fun key => change.perform site t key) w
  rw [← change.program_eq] at hProgram
  generalize (look site t change.target).run (Desk.answer site supply mischief) w = looked
    at hFound hAlike hProgram
  obtain ⟨outcome, w'⟩ := looked
  obtain rfl : outcome = change.target d.keyLimits t.running := hFound
  have hMirrors := h.same hAlike.uuids.symm hAlike.store
  rw [Ledger.call, Transaction.call, hProgram]
  generalize change.target d.keyLimits t.running = key? at hAgrees ⊢
  generalize hAllowed : l.catalog.allows d.keyLimits change = allowed at hAgrees ⊢
  cases hAgrees with
  | error e => exact ⟨rfl, hMirrors.less⟩
  | ok hKey =>
      subst hKey
      dsimp only
      rcases change.perform_cases with
        ⟨hNone, hPerform⟩ | ⟨α, _, x, path, hDefinition, hPerform⟩
      · rw [hPerform, change.placeable_of_none hNone, hNone]
        exact ⟨rfl, hMirrors.perform_removal hAllowed hNone⟩
      · rw [hPerform, h.depicts.placeable_eq hAllowed hDefinition, hDefinition]
        cases hCheck : Path.check (path (supply.uuid l.drawn)) with
        | ok value =>
            obtain ⟨t', w'', hRun, hNext⟩ :=
              hMirrors.perform_definition hAllowed hDefinition (hFits _ _ hDefinition) hCheck
            rw [hRun]
            exact ⟨rfl, hNext⟩
        | error e =>
            obtain ⟨w'', hRun, hNext⟩ := hMirrors.perform_rejected _ x hCheck
            rw [hRun]
            exact ⟨rfl, hNext⟩

/-- A call on the transaction answers what it answers on the catalog. -/
theorem call (mischief : Nat → Mischief) (h : Mirrors site supply d t w l (left + 1))
    {call : Transaction.Call} (hFits : call.Fits) :
    (t.call site (Desk.answer site supply mischief) w call).1 = (l.call d supply.uuid call).1 ∧
      Mirrors site supply d (t.call site (Desk.answer site supply mischief) w call).2.1
        (t.call site (Desk.answer site supply mischief) w call).2.2 (l.call d supply.uuid call).2
        left := by
  cases call with
  | ask q =>
      have hQuery : Yields (Desk.answer site supply mischief) (w.Alike site ·) (q.program site t)
          (l.catalog.answer d q) :=
        (Desk.shows w).yields_of_finds (h.depicts.finds_query h.governs q)
      obtain ⟨hAnswer, hAlike⟩ := hQuery w (.refl w)
      exact ⟨congrArg (Except.map some) hAnswer, (h.same hAlike.uuids.symm hAlike.store).less⟩
  | make change => exact h.make hFits

/-- Calls on the transaction, one after another, answer what they answer on the catalog. -/
theorem answers (mischief : Nat → Mischief) {calls : List Transaction.Call}
    (h : Mirrors site supply d t w l calls.length) (hFits : ∀ call ∈ calls, call.Fits) :
    t.answers site (Desk.answer site supply mischief) w calls = l.answers d supply.uuid calls := by
  induction calls generalizing t w l with
  | nil => rfl
  | cons call rest ih =>
      have hCall := h.call mischief (hFits call List.mem_cons_self)
      rw [Transaction.answers, Ledger.answers, ← hCall.1]
      exact congrArg _ (ih hCall.2 fun other hMem => hFits other (List.mem_cons_of_mem _ hMem))

end Mirrors

/-! ### Transactions that begin at a version -/

section Begin

variable {site : Site} {supply : Supply} {mischief : Nat → Mischief} {published : List Publication}
  {m : Memory} {w : Desk}

/-- A transaction that begins at a published version starts from its root. -/
theorem Desk.run_beginAtVersion (supply : Supply) (mischief : Nat → Mischief)
    (hRecords : Records site w.store published) {v : Version} {p : Publication}
    (hFound : published[v.toNat]? = some p) (isolation : IsolationLevel) :
    ∃ t w', (beginAtVersion site v isolation).run (Desk.answer site supply mischief) w =
        (.ok t, w') ∧
      t.running = p.root ∧ w'.uuids = w.uuids ∧ site.Matches w.store w'.store := by
  have hRoot : Yields (Desk.answer site supply mischief) (w.Alike site ·)
      (Chain.rootForVersion site v) (.ok p.root) :=
    (Desk.shows w).yields_rootForVersion hRecords hFound
  obtain ⟨hOutcome, hAlike⟩ := hRoot w (.refl w)
  have hRun := Program.run_bind (Desk.answer site supply mischief) (Chain.rootForVersion site v)
    (fun root => beginAt root isolation) w
  generalize (Chain.rootForVersion site v).run (Desk.answer site supply mischief) w = found
    at hOutcome hAlike hRun
  obtain ⟨_, w'⟩ := found
  obtain rfl := hOutcome
  have hStore := (hAlike.store.trans (.tamper (mischief w'.requests) w'.store)).trans
    (.tamper (mischief (w'.requests + 1)) _)
  exact ⟨_, _, hRun, rfl, hAlike.uuids.symm, hStore⟩

/-- The rows of a version depict what the changes committed up to it make out of nothing. -/
theorem Records.depicts (h : Records site m published) {first p : Publication} {d : LakehouseDef}
    (hFirst : published[0]? = some first) (hGoverns : Governs site m first.root.lakehouseDefPath d)
    {i : Nat} (hp : published[i]? = some p) :
    Depicts site m d.keyLimits p.root.rows (Catalog.ofChanges
      (((published.take (i + 1)).flatMap (·.author.mutations)).map (·.change))) :=
  (Depicts.empty site m d.keyLimits).replay (h.stored_mutations (i + 1))
    (h.replay_all hFirst hGoverns hp)

end Begin

namespace System

variable {site : Site} {s : System}

/-- The changes that committed transactions made up to a version, one after another. -/
def changesUpTo (site : Site) (s : System) (v : Version) : List Change :=
  (((s.published site).take (v.toNat + 1)).flatMap (·.2.mutations)).map (·.change)

/-- The definition with which the lakehouse was created governs it. -/
theorem Sound.governs_of_created {published : List Publication} (hSound : s.Sound site published)
    {d : LakehouseDef} (hCreated : (s.published site)[0]? = some (0, .create d)) :
    ∃ first, published[0]? = some first ∧ Governs site s.store first.root.lakehouseDefPath d := by
  rw [hSound.log, getElem?_numbered] at hCreated
  obtain ⟨first, hFirst, hAuthor⟩ := Option.map_eq_some_iff.mp hCreated
  obtain ⟨d', hCreate, hGoverns⟩ := hSound.records.governs hFirst
  obtain rfl : d' = d := Operation.create.inj (hCreate.symm.trans (Prod.mk.inj hAuthor).2)
  exact ⟨first, hFirst, hGoverns⟩

/-- In every state that clients can bring about, a transaction that begins at any version mirrors the
catalog that the changes committed up to that version make out of nothing. -/
theorem Reachable.mirrors_begun (hReach : Reachable site s) {d : LakehouseDef}
    (hCreated : (s.published site)[0]? = some (0, .create d)) {v : Version}
    (hVersion : v.toNat < (s.published site).length) {w : Desk} (hStore : w.store = s.store)
    (supply : Supply) (mischief : Nat → Mischief) (isolation : IsolationLevel) {count : Nat}
    (hFresh : w.Fresh site supply count) :
    ∃ t w', (beginAtVersion site v isolation).run (Desk.answer site supply mischief) w =
        (.ok t, w') ∧
      Mirrors site supply d t w' ⟨Catalog.ofChanges (s.changesUpTo site v), w.uuids⟩ count := by
  obtain ⟨published, hSound⟩ := hReach.sound
  have hRecords : Records site w.store published := hStore ▸ hSound.records
  obtain ⟨first, hFirst, hGoverns⟩ := hSound.governs_of_created hCreated
  rw [← hStore] at hGoverns
  rw [hSound.log, numbered, List.length_mapIdx] at hVersion
  have hFound : published[v.toNat]? = some published[v.toNat] := List.getElem?_eq_getElem hVersion
  obtain ⟨t, w', hRun, hRunning, hUuids, hMatches⟩ :=
    Desk.run_beginAtVersion supply mischief hRecords hFound isolation
  have hChanges : s.changesUpTo site v =
      ((published.take (v.toNat + 1)).flatMap (·.author.mutations)).map (·.change) := by
    rw [changesUpTo, hSound.mutations_take]
  have hPath : t.running.lakehouseDefPath = first.root.lakehouseDefPath := by
    rw [hRunning]
    exact (hRecords.isVersion hFirst hFound).lakehouseDefPath
  have hMirrors : Mirrors site supply d t w ⟨Catalog.ofChanges (s.changesUpTo site v), w.uuids⟩
      count := by
    refine ⟨hPath ▸ hGoverns, ?_, rfl, hFresh⟩
    rw [hRunning, hChanges]
    exact hRecords.depicts hFirst hGoverns hFound
  exact ⟨t, w', hRun, hMirrors.same hUuids hMatches⟩

/-- In every state that clients can bring about, a transaction that begins at any version answers
every call as the catalog does that the changes committed up to that version make out of nothing. -/
theorem Reachable.transaction_refines (hReach : Reachable site s) {d : LakehouseDef}
    (hCreated : (s.published site)[0]? = some (0, .create d)) {v : Version}
    (hVersion : v.toNat < (s.published site).length) {w : Desk} (hStore : w.store = s.store)
    (supply : Supply) (mischief : Nat → Mischief) (isolation : IsolationLevel)
    {calls : List Transaction.Call} (hFits : ∀ call ∈ calls, call.Fits)
    (hFresh : w.Fresh site supply calls.length) :
    ∃ t w', (beginAtVersion site v isolation).run (Desk.answer site supply mischief) w =
        (.ok t, w') ∧
      t.answers site (Desk.answer site supply mischief) w' calls =
        (Ledger.mk (Catalog.ofChanges (s.changesUpTo site v)) w.uuids).answers d supply.uuid
          calls := by
  obtain ⟨t, w', hRun, hMirrors⟩ :=
    hReach.mirrors_begun hCreated hVersion hStore supply mischief isolation hFresh
  exact ⟨t, w', hRun, hMirrors.answers mischief hFits⟩

/-- A stored version was published, and the lakehouse was created before. -/
theorem Reachable.exists_created (hReach : Reachable site s) {v : Version}
    (hStored : s.store.contains (site.resolve (RootPath.ofVersion v)) = true) :
    v.toNat < (s.published site).length ∧ ∃ d, (s.published site)[0]? = some (0, .create d) := by
  obtain ⟨published, hSound⟩ := hReach.sound
  have hVersion := (hSound.records.contains_root_iff v).mp hStored
  obtain ⟨first, hFirst⟩ := Records.exists_first (List.getElem_mem hVersion)
  obtain ⟨d, hCreate, -⟩ := hSound.records.governs hFirst
  rw [hSound.log]
  refine ⟨by rwa [numbered, List.length_mapIdx], d, ?_⟩
  rw [getElem?_numbered, hFirst, Option.map_some, hCreate]
  rfl

end System

namespace Session

/-- Calls on a transaction: two changes, of which the second is refused, and a question after
each. -/
def moreCalls : List Transaction.Call :=
  [.make (.createTable "ns" "table" .blank), .ask (.showTables "ns"), .make (.dropNamespace "ns"),
    .ask (.describeTable "ns" "table")]

/-- The sample session drew two identifiers, and nothing that it stored bears one of the next. -/
theorem drawn_afterSample : afterSample.uuids = 2 ∧
    (afterSample.store.keys.all fun key => (List.range moreCalls.length).all fun i =>
      !Text.endsWith key (((Supply.counting 5).uuid (2 + i)).text ++ DefinitionPath.suffix)) =
        true := by
  decide +kernel

theorem fresh_afterSample : afterSample.Fresh .top (.counting 5) moreCalls.length := by
  obtain ⟨hUuids, hKeys⟩ := drawn_afterSample
  have hDistinct : ∀ j < moreCalls.length, ∀ i < j,
      (Supply.counting 5).uuid (2 + i) ≠ (Supply.counting 5).uuid (2 + j) := by decide
  rw [← hUuids] at hDistinct hKeys
  exact .of_keys hDistinct hKeys

theorem fits_moreCalls : ∀ call ∈ moreCalls, call.Fits := by
  intro call hMem
  simp only [moreCalls, List.mem_cons, List.not_mem_nil, or_false] at hMem
  rcases hMem with rfl | rfl | rfl | rfl
  · rintro _ _ ⟨⟩
    decide
  · trivial
  · nofun
  · trivial

end Session

/-- A transaction that begins at the version which the sample session committed. -/
theorem System.transaction_refines_afterSample : ∃ s, Reachable .top s ∧ ∃ d t w,
    (beginAtVersion .top 1 .snapshot).run (Desk.answer .top (.counting 5) fun _ => .none)
        Session.afterSample = (.ok t, w) ∧
      t.answers .top (Desk.answer .top (.counting 5) fun _ => .none) w Session.moreCalls =
        (Ledger.mk (Catalog.ofChanges (s.changesUpTo .top 1)) Session.afterSample.uuids).answers d
          (Supply.counting 5).uuid Session.moreCalls := by
  obtain ⟨s, hReach, hStore⟩ := Session.exists_reachable_afterSample
  obtain ⟨hVersion, d, hCreated⟩ := hReach.exists_created (hStore ▸ Session.contains_afterSample)
  exact ⟨s, hReach, d, hReach.transaction_refines hCreated hVersion hStore.symm (.counting 5)
    (fun _ => .none) .snapshot Session.fits_moreCalls Session.fresh_afterSample⟩

end SnapshotCatalog
