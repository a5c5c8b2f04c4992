/-!
Which numbers are too large for a double. A number is read as a whole number of 64 bits, its
significand, times a power of ten, and both are rounded to doubles before they are multiplied, which
decides the question close to the greatest double.
-/
namespace SnapshotCatalog.Json

def digitValue (c : Char) : Nat := c.toNat - '0'.toNat

/-- The number that digits spell. -/
def valueOf (digits : List Char) : Nat :=
  digits.foldl (fun value c => value * 10 + digitValue c) 0

/-- Appends digits to a number up to the first that would take it beyond 64 bits. That digit and
those behind it are left over, and only how many they are is told. -/
def appendDigits (value : Nat) : List Char → Nat × Nat
  | [] => (value, 0)
  | c :: rest =>
    if value * 10 + digitValue c < UInt64.size then appendDigits (value * 10 + digitValue c) rest
    else (value, rest.length + 1)

/-- A number is its significand times ten to the power of its exponent. -/
structure Scaled where
  significand : Nat
  exponent : Int
  deriving DecidableEq, Repr

/-- The number with these digits before and behind its point. A digit before the point that is left
over counts in the exponent, and one behind it not at all. -/
def scaled (whole fraction : List Char) (exponent : Int) : Scaled :=
  let (value, above) := appendDigits 0 whole
  let (value, beyond) := appendDigits value fraction
  ⟨value, exponent + above - (fraction.length - beyond : Nat)⟩

/-- A whole number rounded to the 53 binary digits of a double, a half to the even neighbour. -/
def roundToDouble (n : Nat) : Nat :=
  let places := n.log2 + 1 - 53
  let kept := n >>> places
  let doubled := 2 * (n - kept <<< places)
  let isUp := 1 <<< places < doubled || (1 <<< places == doubled && kept % 2 == 1)
  (if isUp then kept + 1 else kept) <<< places

/-- The least whole number that no double reaches. -/
def doubleBound : Nat := 1 <<< 1024

/-- The greatest power of ten that is a double. -/
def greatestExponent : Nat := 308

/-- Whether the double of a number is finite. -/
def Scaled.isFinite (s : Scaled) : Bool :=
  s.significand == 0 || s.exponent < 0 ||
    (s.exponent ≤ greatestExponent &&
      roundToDouble
        (roundToDouble s.significand * roundToDouble (Nat.pow 10 s.exponent.toNat)) < doubleBound)

end SnapshotCatalog.Json
