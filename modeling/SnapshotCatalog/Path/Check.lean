import SnapshotCatalog.Path.Segments
import SnapshotCatalog.Error
/-!
Which paths a lakehouse accepts. A path stays below where it is resolved: it is not absolute, has no
segment that leads upwards, and holds no character that a store may read as a separator, an escape
or a control.
-/
namespace SnapshotCatalog.Path

/-- Whether a character is a control: the first two blocks of 32 characters, and the delete
character. -/
def isControl (c : Char) : Bool := c.toNat < 0x20 || (0x7f ≤ c.toNat && c.toNat ≤ 0x9f)

/-- Whether a segment names its own or the upper directory. -/
def isDots (segment : List Char) : Bool := segment == ['.'] || segment == ['.', '.']

/-- The first rule that a path breaks. -/
def fault? (path : String) : Option PathFault :=
  let cs := path.toList
  if cs.isEmpty then some .missing
  else if cs.head? = some '/' then some (.absolute path)
  else if cs.contains '\\' then some (.backslash path)
  else if cs.contains '%' then some (.percent path)
  else if cs.any isControl then some (.control path)
  else if (segments cs).any isDots then some (.traversal path)
  else none

def check (path : String) : Except Error Unit :=
  match fault? path with
  | some fault => .error (.invalidArgument (.path fault))
  | none => .ok ()

end SnapshotCatalog.Path
