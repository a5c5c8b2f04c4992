import SnapshotCatalog.Proofs.Invariant
import SnapshotCatalog.Proofs.Requests
/-!
The hint never runs ahead of the chain. A client writes it only after it was told that it created the
root that the hint then names, and no root is ever lost. The write may come late, when the chain is much
longer, and it may come after the write of someone who published later; so the hint may go back, but
what it names is stored.
-/
namespace SnapshotCatalog

open Storage (Memory)
open Program

variable {site : Site} {m m' : Memory} {drawn : Option Uuid} {s s' : System}

namespace Hint

/-- What lies at the hint is the text of a version whose root is stored. -/
def NamesStored (site : Site) (m : Memory) (blob : Storage.Blob) : Prop :=
  ∃ v : Version, blob = content v ∧ m.contains (site.resolve (RootPath.ofVersion v)) = true

/-- There is no hint, or what it names is stored. -/
def Held (site : Site) (m : Memory) : Prop :=
  ∀ blob, m.get? (site.resolve path) = some blob → NamesStored site m blob

theorem NamesStored.grows {blob : Storage.Blob} (h : NamesStored site m blob)
    (hGrows : site.Grows m m') : NamesStored site m' blob := by
  obtain ⟨v, hBlob, hStored⟩ := h
  obtain ⟨root, hRoot⟩ := Option.isSome_iff_exists.mp hStored
  refine ⟨v, hBlob, ?_⟩
  rw [TextMap.contains, hGrows _ _ (site.resolve_ne_hint (RootPath.ofVersion_ne_hint v)) hRoot]
  rfl

/-- Objects elsewhere do not matter to the hint. -/
theorem Held.grows (h : Held site m) (hGrows : site.Grows m m')
    (hSame : m'.get? (site.resolve path) = m.get? (site.resolve path)) : Held site m' := by
  intro blob hBlob
  rw [hSame] at hBlob
  exact (h blob hBlob).grows hGrows

/-- A request that overwrites an object only if it makes a hint of it that names a stored version. -/
def Truthful (site : Site) (m : Memory) (r : Request) : Prop :=
  ∀ key blob, r = .call (.put key blob .overwrite) → NamesStored site m blob

end Hint

/-- The terms on which the hint is written. -/
def hinting (site : Site) (m : Memory) (drawn : Option Uuid) : Terms :=
  ⟨Honest site m drawn, Hint.Truthful site m, fun _ => True⟩

theorem coversUnpublished_truthful (op : Operation Transaction) :
    CoversUnpublished site (Hint.Truthful site m) op where
  chain := ⟨⟨fun _ _ _ => nofun, fun _ _ _ => nofun⟩, fun _ _ _ => nofun⟩
  readHint _ _ := nofun
  uuid _ _ := nofun
  transactionId _ _ := nofun
  clock _ _ := nofun
  lakehouse _ _ _ _ := nofun
  limits _ _ _ _ := nofun
  rows _ _ _ _ _ _ := nofun
  definition _ _ _ _ _ _ _ _ _ _ _ _ := nofun

/-- Publishing names a version in the hint only when it was told that its root was created. -/
theorem Lakehouse.keeps_hinting_publish (version : Version) (d : LakehouseDef) (r : Root) :
    (publish site version d r).Keeps (hinting site m drawn) fun _ => True := by
  have hAny (e : Error) : (hinting site m drawn).fails e := trivial
  have hClock : clock.Asks (hinting site m drawn).asks :=
    Asks.request (by rintro _ _ ⟨⟩) fun _ => asks_done _
  apply Asks.keeps_bind hClock hAny
  intro time
  apply Asks.keeps_bind (asks_ofExcept _) hAny
  intro _
  rw [Site.create, site.key_root]
  apply (keeps_bind _ _ _).mpr
  apply keeps_call (.put _ _ _) (by rintro _ _ ⟨⟩) fun e _ => hAny e
  intro outcome hOutcome
  cases outcome with
  | alreadyExists => exact Keeps.done trivial
  | written =>
      have hStored := hOutcome (site.resolve_ne_hint (RootPath.ofVersion_ne_hint version)) rfl rfl
      have hNamed : Hint.NamesStored site m (Hint.content version) := by
        refine ⟨version, rfl, ?_⟩
        rw [TextMap.contains, hStored]
        rfl
      have hWrite : (Hint.write site version).Asks (hinting site m drawn).asks := by
        apply Hint.asks_write_content
        · rintro _ _ _ ⟨⟩
        · rintro _ _ ⟨⟩
          exact hNamed
      exact Asks.keeps_bind hWrite hAny fun _ => Keeps.done trivial

theorem Operation.keeps_hinting (op : Operation Transaction) :
    (op.program site).Keeps (hinting site m drawn) fun _ => True :=
  (coversUnpublished_truthful op).keeps_program (fun _ => trivial)
    fun _ => Lakehouse.keeps_hinting_publish

namespace System

/-- A request that an operation may make, and that is truthful, keeps what the hint names stored. -/
theorem held_of_serves {op : Operation Handle} {r : Request} {a : r.Answer} (hHeld : Hint.Held site m)
    (hPermitted : Permitted site m op drawn r) (hTruthful : Hint.Truthful site m r)
    (hGrows : site.Grows m m') (hServes : Serves m r a m') : Hint.Held site m' := by
  have hCreated {path : String} (hPath : path ≠ Hint.path) (blob : Storage.Blob) :
      (Memory.answer (.put (site.resolve path) blob .createNew) m).2.get? (site.resolve Hint.path) =
        m.get? (site.resolve Hint.path) := by
    rw [answer_createNew]
    split
    · rfl
    · exact m.get?_insert_of_ne (site.resolve_ne_hint hPath).symm blob
  cases hServes with
  | failed c e hFault => exact hHeld
  | uuid id => exact hHeld
  | transactionId id => exact hHeld
  | clock time => exact hHeld
  | record measurement => exact hHeld
  | performed c =>
      cases hPermitted with
      | quiet hQuiet =>
          rw [Memory.answer_snd_of_not_write hQuiet]
          exact hHeld
      | definition hDrawn hBears => exact hHeld.grows hGrows (hCreated hBears.ne_hint _)
      | first hAuthor hFounds => exact hHeld.grows hGrows (hCreated (RootPath.ofVersion_ne_hint 0) _)
      | @next p before version hAuthor hFollows =>
          exact hHeld.grows hGrows (hCreated (RootPath.ofVersion_ne_hint version) _)
      | hint blob =>
          intro found hFound
          rw [Memory.answer, if_neg fun hBoth => Storage.WriteMode.noConfusion hBoth.1] at hFound
          rw [m.get?_insert_self] at hFound
          cases hFound
          exact (hTruthful _ _ rfl).grows hGrows

/-- A step keeps what the hint names stored. -/
theorem Sound.held_step {published : List Publication} (hSound : s.Sound site published)
    (hHeld : Hint.Held site s.store) (hStep : Step site s s') : Hint.Held site s'.store := by
  have hGrows := (hSound.step hStep).1
  cases hStep with
  | start hIdle hKnown hFits => exact hHeld
  | finish hRun hOutcome => exact hHeld
  | @answer client op drawn r next a store hRun hServes =>
      have hRunSound := hSound.runs client _ hRun
      have hPermitted := ((keeps_request r next).mp (hRunSound.keeps hSound.records)).1
      have hTruthful := ((keeps_request r next).mp
        (hRunSound.reached.keeps (Operation.keeps_hinting (op.map Handle.transaction)))).1
      exact held_of_serves hHeld hPermitted hTruthful hGrows hServes

/-- Whatever clients do and whichever of their calls fail, what the hint names is stored. -/
theorem Reachable.held (hReach : Reachable site s) : Hint.Held site s.store := by
  induction hReach with
  | refl =>
      intro blob hBlob
      cases hBlob
  | tail hBefore hStep ih =>
      obtain ⟨published, hSound⟩ := Reachable.sound hBefore
      exact hSound.held_step ih hStep

end System

end SnapshotCatalog
