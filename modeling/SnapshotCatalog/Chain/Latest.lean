import SnapshotCatalog.Hint
/-!
The newest version. The versions of a chain have no gaps, so it is found by probing upwards from
the version that the hint names, or from version 0 when there is no such root.
-/
namespace SnapshotCatalog.Chain

/-- Whether the root of a version is stored. -/
def hasRoot (site : Site) (version : Version) : Program Bool :=
  site.contains (RootPath.ofVersion version)

/-- How many versions come after a version. -/
def versionsAfter (version : Version) : Nat := UInt64.size - 1 - version.toNat

/-- Goes up from a stored version while the next one is stored too. The result is the version
reached and the number of probes spent. Probes are counted in natural numbers, which never wrap. Only
a search that goes up from version 0 to one of the last three versions spends more than a `UInt64` counts. -/
def climb (site : Site) (version : Version) (probes : Nat) : Nat → Program (Version × Nat)
  | 0 => return (version, probes)
  | left + 1 => do
    if ← hasRoot site (version + 1) then climb site (version + 1) (probes + 1) left
    else return (version, probes + 1)

/-- Goes up from a stored version as far as versions are stored, and records the cost. -/
def climbFrom (site : Site) (version : Version) (probes : Nat) : Program Version := do
  let (latest, probes) ← climb site version probes (versionsAfter version)
  Program.record (.rootProbes probes)
  return latest

/-- The end of a search that did not even find version 0. -/
def notInitialized {α : Type} (probes : Nat) : Program α := do
  Program.record (.rootProbes probes)
  .fail (.objectNotFound .uninitialized)

/-- The newest version, looked for from the version that a hint names. -/
def latestFrom (site : Site) (hint : Version) : Program Version := do
  if ← hasRoot site hint then climbFrom site hint 1
  else if hint = 0 then notInitialized 1
  else do
    Program.record (.hintFallback .stale)
    if ← hasRoot site 0 then climbFrom site 0 2 else notInitialized 2

/-- The newest committed version. -/
def latestVersion (site : Site) : Program Version := do
  latestFrom site (← Hint.read site)

end SnapshotCatalog.Chain
