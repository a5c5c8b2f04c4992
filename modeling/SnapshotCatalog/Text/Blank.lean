/-!
Blank characters, and texts without the blanks around them. A character is blank when it has the
White_Space property; a zero-width space or a byte order mark does not have it.
-/
namespace SnapshotCatalog.Text

/-- Whether a character has the White_Space property. -/
def isBlank (c : Char) : Bool :=
  let code := c.toNat
  (0x09 ≤ code && code ≤ 0x0d) || code == 0x20 || code == 0x85 || code == 0xa0 ||
    code == 0x1680 || (0x2000 ≤ code && code ≤ 0x200a) || code == 0x2028 || code == 0x2029 ||
    code == 0x202f || code == 0x205f || code == 0x3000

/-- The text without the blanks at its two ends. -/
def trim (s : String) : String :=
  String.ofList ((s.toList.dropWhile isBlank).reverse.dropWhile isBlank).reverse

/-- The text with its ASCII letters in lower case. Letters beyond ASCII stay as they are. -/
def lower (s : String) : String :=
  String.ofList (s.toList.map Char.toLower)

end SnapshotCatalog.Text
