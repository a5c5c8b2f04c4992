import SnapshotCatalog.Text.Hidden
/-!
Quoted text, as error messages and settings show it. A quote, a backslash and the four usual
controls have short escapes, a hidden character is written by its number, and every other
character stands for itself. The quote that does not delimit the text needs no escape.
-/
namespace SnapshotCatalog.Text

/-- The number of a character in braces, in lower-case hexadecimal. -/
def byNumber (c : Char) : List Char :=
  ['\\', 'u', '\x7b'] ++ Nat.toDigits 16 c.toNat ++ ['\x7d']

/-- How a character is written between two copies of `mark`. -/
def escaped (mark c : Char) : List Char :=
  match c with
  | '\x00' => ['\\', '0']
  | '\t' => ['\\', 't']
  | '\r' => ['\\', 'r']
  | '\n' => ['\\', 'n']
  | '\\' => ['\\', '\\']
  | c => if c = mark then ['\\', c] else if isHidden c then byNumber c else [c]

/-- A text in double quotes. -/
def quoted (s : String) : String :=
  String.ofList ('"' :: s.toList.flatMap (escaped '"') ++ ['"'])

/-- A character in single quotes. -/
def quotedChar (c : Char) : String :=
  String.ofList ('\'' :: escaped '\'' c ++ ['\''])

/-- A text that may be absent. -/
def quotedOption : Option String → String
  | none => "None"
  | some s => "Some(" ++ quoted s ++ ")"

end SnapshotCatalog.Text
