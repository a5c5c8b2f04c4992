import SnapshotCatalog.Proofs.Sessions
import SnapshotCatalog.Proofs.StillStore
/-!
The chain of roots stays whole. Whatever any number of clients do to one store, and whatever calls
fail, the stored roots are those of the versions up to the newest, each linked to the one before it,
and a root that was stored never changes again.
-/
namespace SnapshotCatalog

open Storage (Memory)

def Operation.isCommit {τ : Type} : Operation τ → Bool
  | .commit _ => true
  | _ => false

/-- How many commits were told that they had created the root of a version. -/
def System.commits (site : Site) (s : System) : Nat :=
  ((s.published site).map (·.2)).countP (·.isCommit)

/-- No root is stored. -/
def Site.HasNoRoot (site : Site) (m : Memory) : Prop :=
  ∀ path, RootPath.isRootPath path = true → m.contains (site.resolve path) = false

/-- A store holds the roots of the versions up to one, and no others. Each can be read, names the
root before it, and names the same definition of the lakehouse as the others. -/
structure Site.HasChain (site : Site) (m : Memory) (definition : String) (last : Version) : Prop where
  stored : ∀ path, RootPath.isRootPath path = true →
    (m.contains (site.resolve path) = true ↔ ∃ v ≤ last, path = RootPath.ofVersion v)
  linked : ∀ v ≤ last, ∃ blob r, m.get? (site.resolve (RootPath.ofVersion v)) = some blob ∧
    Chain.parseRoot (.ofVersion v) blob = .ok r ∧ r.lakehouseDefPath = definition ∧
    r.previousRootPath = if v = 0 then none else some (RootPath.ofVersion (v - 1))

variable {site : Site} {m : Memory} {published : List Publication}

theorem Publication.Founds.isCommit_author {p : Publication} (h : p.Founds site m) :
    p.author.isCommit = false := by
  obtain ⟨d, path, time, hAuthor, -⟩ := h
  rw [hAuthor]
  rfl

theorem Publication.Follows.isCommit_author {p : Publication} {before : Root} {v : Version}
    (h : p.Follows site m before v) : p.author.isCommit = true := by
  obtain ⟨handle, d, draft, time, hAuthor, -⟩ := h
  rw [hAuthor]
  rfl

namespace Records

variable (h : Records site m published)

include h

/-- All published versions but the first come from commits. -/
theorem isCommit_author {i : Nat} {p : Publication} (hp : published[i]? = some p) :
    p.author.isCommit = decide (0 < i) := by
  cases i with
  | zero => exact (h.first p hp).isCommit_author
  | succ i =>
      have hLength := (List.getElem?_eq_some_iff.mp hp).1
      obtain ⟨version, hFollows⟩ := h.next i _ p (List.getElem?_eq_getElem (by omega)) hp
      exact hFollows.isCommit_author

theorem countP_isCommit : published.countP (·.author.isCommit) = published.length - 1 := by
  cases published with
  | nil => rfl
  | cons first rest =>
      have hRest : rest.countP (·.author.isCommit) = rest.length := by
        refine List.countP_eq_length.mpr fun p hp => ?_
        obtain ⟨i, hi⟩ := List.getElem?_of_mem hp
        exact h.isCommit_author (i := i + 1) hi
      have hFirst : first.author.isCommit = false := h.isCommit_author (i := 0) rfl
      rw [List.countP_cons, hRest, hFirst]
      rfl

theorem hasNoRoot (hNone : published = []) : site.HasNoRoot m := by
  intro path hRoot
  obtain ⟨v, rfl⟩ := (RootPath.isRootPath_iff_exists path).mp hRoot
  rw [← Bool.not_eq_true, h.contains_root_iff, hNone]
  exact Nat.not_lt_zero _

theorem hasChain {first : Publication} (hFirst : published[0]? = some first) {last : Version}
    (hLast : last.toNat + 1 = published.length) :
    site.HasChain m first.root.lakehouseDefPath last := by
  have hUpTo (v : Version) : v ≤ last ↔ v.toNat < published.length := by
    rw [UInt64.le_iff_toNat_le]
    omega
  refine ⟨fun path hRoot => ?_, fun v hv => ?_⟩
  · obtain ⟨v, rfl⟩ := (RootPath.isRootPath_iff_exists path).mp hRoot
    rw [h.contains_root_iff, ← hUpTo]
    constructor
    · exact fun hv => ⟨v, hv, rfl⟩
    · rintro ⟨w, hw, hSame⟩
      rwa [RootPath.ofVersion_injective hSame]
  · have hp : published[v.toNat]? = some _ := List.getElem?_eq_getElem ((hUpTo v).mp hv)
    have hVersion := h.isVersion hFirst hp
    rw [UInt64.ofNat_toNat] at hVersion
    refine ⟨_, _, ?_, hVersion.parseRoot_blob, hVersion.lakehouseDefPath, hVersion.previousRootPath⟩
    rw [h.stored v, hp, Option.map_some]

end Records

namespace System

variable {s s' : System}

/-- The log shows one commit for every published version but the first. -/
theorem Sound.commits (hSound : s.Sound site published) :
    s.commits site = published.length - 1 := by
  rw [System.commits, hSound.log, map_snd_numbered, List.countP_map]
  exact hSound.records.countP_isCommit

theorem Sound.keepsRoots {v : Version} {blob : Storage.Blob} (hSound : s.Sound site published)
    (hSteps : Steps site s s') (hGet : s.store.get? (site.resolve (RootPath.ofVersion v)) = some blob) :
    s'.store.get? (site.resolve (RootPath.ofVersion v)) = some blob :=
  (hSound.steps hSteps).1 _ _ (site.resolve_ne_hint (RootPath.ofVersion_ne_hint v)) hGet

/-- In every state that clients can bring about, the store holds either no root or a whole chain,
which grows by one version with every commit that created a root, and which is counted by verifying
it. What comes later changes no root. -/
theorem Reachable.chain_intact (hReach : Reachable site s) :
    (site.HasNoRoot s.store ∧ s.commits site = 0 ∨
      ∃ definition last, site.HasChain s.store definition last ∧ last.toNat = s.commits site ∧
        ∀ h : Host, h.store = .ofBackend (.memory s.store) →
          (h.run (Chain.verify site)).1 = .ok (last.toNat + 1)) ∧
    ∀ s', Steps site s s' → ∀ path, RootPath.isRootPath path = true → ∀ blob,
      s.store.get? (site.resolve path) = some blob → s'.store.get? (site.resolve path) = some blob := by
  obtain ⟨published, hSound⟩ := hReach.sound
  have hCommits := hSound.commits
  refine ⟨?_, fun s' hSteps path hRoot blob hGet => ?_⟩
  · cases hPublished : published with
    | nil =>
        rw [hPublished] at hCommits
        exact .inl ⟨hSound.records.hasNoRoot hPublished, hCommits⟩
    | cons first rest =>
        have hSome : published ≠ [] := hPublished ▸ List.cons_ne_nil first rest
        have hLength := List.length_pos_iff.mpr hSome
        have hCount := hSound.records.countable
        have hTop : (UInt64.ofNat (published.length - 1)).toNat = published.length - 1 :=
          UInt64.toNat_ofNat_of_lt' (by omega)
        refine .inr ⟨_, _, hSound.records.hasChain (by rw [hPublished]; rfl)
          (by rw [hTop]; omega), by rw [hTop, hCommits], fun h hStore => ?_⟩
        have hVerify := ((Host.shows site s.store).yields_verify hSound.records hSome h hStore).1
        rw [hTop, Nat.sub_add_cancel hLength]
        exact hVerify
  · obtain ⟨v, rfl⟩ := (RootPath.isRootPath_iff_exists path).mp hRoot
    exact hSound.keepsRoots hSteps hGet

/-- The chain after a lakehouse was created and a transaction was committed. -/
theorem chain_intact_afterSample : ∃ s, Reachable .top s ∧ ¬ Site.top.HasNoRoot s.store ∧
    ∃ definition last, Site.top.HasChain s.store definition last ∧
      last.toNat = s.commits .top := by
  obtain ⟨s, hReach, hStore⟩ := Session.exists_reachable_afterSample
  have hRoot : ¬ Site.top.HasNoRoot s.store := by
    intro hNone
    have hAbsent := hNone _ ((RootPath.isRootPath_iff_exists _).mpr ⟨1, rfl⟩)
    rw [hStore, Session.contains_afterSample] at hAbsent
    cases hAbsent
  refine ⟨s, hReach, hRoot, ?_⟩
  rcases hReach.chain_intact.1 with ⟨hNone, -⟩ | ⟨definition, last, hChain, hCount, -⟩
  · exact absurd hNone hRoot
  · exact ⟨definition, last, hChain, hCount⟩

end System

end SnapshotCatalog
