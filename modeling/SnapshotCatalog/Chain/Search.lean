import SnapshotCatalog.Chain.Link
/-!
Roots of the past. A search goes down from the newest root, link by link, and looks at nothing
below the root that it returns. Versions decrease by one at each link, so it ends.
-/
namespace SnapshotCatalog.Chain

/-- What a search wants: how it judges each root it meets, and its errors for the end of the chain
and for a broken link. -/
structure Search where
  judge : Location → Root → Option (Except Error Root)
  exhausted : Error
  broken : String → BrokenLink → Error

/-- Goes down from a root below which there are at most so many others. -/
def Search.down (s : Search) (site : Site) : Nat → Root → Program Root
  | below, r => do
    let location ← Program.ofExcept (locationOf r)
    match s.judge location r with
    | some result => Program.ofExcept result
    | none =>
      match ← readPrevious site r with
      | .start => .fail s.exhausted
      | .broken path link => .fail (s.broken path link)
      | .root previous =>
        match below with
        | 0 => .fail s.exhausted
        | below + 1 => s.down site below previous

/-- Searches the chain from the newest root on. -/
def Search.run (s : Search) (site : Site) : Program Root := do
  let head ← latestRoot site
  let location ← Program.ofExcept (locationOf head)
  s.down site location.version.toNat head

/-- There is no such version. -/
def noVersion (version : Version) : Error :=
  .objectNotFound (.entity "version" (Numeral.ofNat version.toNat))

/-- The search for a version. -/
def Search.forVersion (version : Version) : Search where
  judge location r :=
    if location.version = version then some (.ok r)
    else if location.version < version then some (.error (noVersion version))
    else none
  exhausted := noVersion version
  broken path link := .objectNotFound (.unreachable version path link)

/-- The search for the newest root that is no younger than a time. -/
def Search.forTime (time : Millis) : Search where
  judge _ r := if r.createdAt.any (· ≤ time) then some (.ok r) else none
  exhausted := .objectNotFound (.beforeFirst time)
  broken path link := .objectNotFound (.beforeReachable time path link)

/-- The root of a version. -/
def rootForVersion (site : Site) (version : Version) : Program Root :=
  (Search.forVersion version).run site

/-- The newest root that was created at a time or before it. -/
def rootBefore (site : Site) (time : Millis) : Program Root := (Search.forTime time).run site

end SnapshotCatalog.Chain
