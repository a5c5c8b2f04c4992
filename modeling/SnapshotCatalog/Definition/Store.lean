import SnapshotCatalog.Definition.Codec
import SnapshotCatalog.Site
/-!
Definitions as objects. A definition is written once: its path is fresh, so an object that is
already there means that two writers drew the same path, and it is left alone.
-/
namespace SnapshotCatalog

namespace Definition

variable {α : Type} [Definition α]

/-- Writes a definition to a path where nothing is stored. -/
def store (site : Site) (path : String) (d : α) : Program Unit := do
  match ← site.create path (.bytes (encode d)) with
  | .written => return ()
  | .alreadyExists => .fail (.storageWrite (.definitionTaken path) none)

/-- The definition in the bytes found at a path. -/
def parse (path : String) (data : List UInt8) : Except Error α :=
  match decode data with
  | .ok d => .ok d
  | .error e => .error (.corrupted path (.definition e))

/-- Reads the definition at a path. -/
def load (site : Site) (path : String) : Program α := do
  Program.ofExcept (parse path (← site.read path).data)

end Definition

namespace LakehouseDef

/-- Refuses a definition with a limit of zero. -/
def validate (d : LakehouseDef) : Except Error Unit :=
  match d.zeroLimit? with
  | some limit => .error (.invalidArgument (.zeroLimit limit))
  | none => .ok ()

/-- Reads the definition of a lakehouse, which must be a valid one. -/
def load (site : Site) (path : String) : Program LakehouseDef := do
  let d : LakehouseDef ← Definition.load site path
  match d.zeroLimit? with
  | some limit => .fail (.corrupted path (.zeroLimit limit))
  | none => return d

end LakehouseDef

end SnapshotCatalog
