import SnapshotCatalog.Text.Bytes
/-!
Paths as segments between slashes. A store that keeps objects under segments drops the empty ones
and writes characters that it reserves, and every character beyond ASCII, as percent-encoded bytes.
-/
namespace SnapshotCatalog.Path

/-- The parts between slashes. There is one more of them than there are slashes. -/
def segments : List Char → List (List Char)
  | [] => [[]]
  | c :: rest =>
    if c = '/' then [] :: segments rest
    else
      match segments rest with
      | [] => [[c]]
      | first :: others => (c :: first) :: others

theorem segments_ne_nil (cs : List Char) : segments cs ≠ [] := by
  cases cs with
  | nil => simp [segments]
  | cons c rest =>
    rw [segments]
    split
    · simp
    · split <;> simp

/-- Joins segments with slashes. -/
def joinSegments : List (List Char) → List Char
  | [] => []
  | [only] => only
  | first :: others => first ++ '/' :: joinSegments others

/-- Splitting loses nothing: the segments, joined again, are the path. -/
theorem joinSegments_segments (cs : List Char) : joinSegments (segments cs) = cs := by
  induction cs with
  | nil => rfl
  | cons c rest ih =>
    rw [segments]
    split
    · next hSlash =>
      subst hSlash
      cases h : segments rest with
      | nil => exact absurd h (segments_ne_nil rest)
      | cons first others => rw [joinSegments, ← h, ih, List.nil_append]; simp
    · cases h : segments rest with
      | nil => exact absurd h (segments_ne_nil rest)
      | cons first others =>
        rw [h] at ih
        cases others with
        | nil => simpa [joinSegments] using ih
        | cons second others => simpa [joinSegments] using ih

/-- The ASCII characters that are encoded: controls and those with a meaning in addresses. -/
def isEncoded (c : Char) : Bool :=
  c.toNat < 0x20 || c.toNat == 0x7f || "\\\x7b^\x7d%`]\">[~<#|*?".toList.contains c

/-- A byte as a percent sign and two upper-case hexadecimal digits. -/
def encodedByte (b : UInt8) : List Char :=
  ['%', (Nat.digitChar (b.toNat / 16)).toUpper, (Nat.digitChar (b.toNat % 16)).toUpper]

/-- A character as a store keeps it. -/
def encodedChar (c : Char) : List Char :=
  if c.toNat < 0x80 && !isEncoded c then [c]
  else (String.utf8EncodeChar c).flatMap encodedByte

/-- The segments under which a store keeps an object. -/
def keySegments (path : String) : List (List Char) :=
  ((segments path.toList).filter (!·.isEmpty)).map (·.flatMap encodedChar)

/-- The key under which a store keeps an object. -/
def key (path : String) : String := String.ofList (joinSegments (keySegments path))

/-- The directory part of a path: what stands before its last slash. -/
def directory? (path : String) : Option String :=
  match (segments path.toList).dropLast with
  | [] => none
  | front => some (String.ofList (joinSegments front))

end SnapshotCatalog.Path
