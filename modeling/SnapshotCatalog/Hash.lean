/-!
The 32-bit hash of a byte string that scatters definition files over directories. Sixteen bytes
at a time feed four lanes; the words and bytes that remain are mixed in one by one, and a final
avalanche spreads every bit. All arithmetic is modulo 2^32.
-/
namespace SnapshotCatalog.Hash

def prime1 : UInt32 := 2654435761
def prime2 : UInt32 := 2246822519
def prime3 : UInt32 := 3266489917
def prime4 : UInt32 := 668265263
def prime5 : UInt32 := 374761393

def rotateLeft (x count : UInt32) : UInt32 := (x <<< count) ||| (x >>> (32 - count))

/-- The word of four bytes, the lowest byte first. -/
def word (a b c d : UInt8) : UInt32 :=
  a.toUInt32 ||| (b.toUInt32 <<< 8) ||| (c.toUInt32 <<< 16) ||| (d.toUInt32 <<< 24)

/-- The whole words of a byte string and the at most three bytes after them. -/
def words : List UInt8 → List UInt32 × List UInt8
  | a :: b :: c :: d :: rest =>
    let (ws, tail) := words rest
    (word a b c d :: ws, tail)
  | tail => ([], tail)

/-- Four accumulators, each fed by every fourth word. -/
structure Lanes where
  first : UInt32
  second : UInt32
  third : UInt32
  fourth : UInt32

def Lanes.start : Lanes := ⟨prime1 + prime2, prime2, 0, 0 - prime1⟩

def round (lane w : UInt32) : UInt32 := rotateLeft (lane + w * prime2) 13 * prime1

/-- Feeds the lanes while four words remain. -/
def Lanes.absorb : Lanes → List UInt32 → Lanes × List UInt32
  | l, a :: b :: c :: d :: rest =>
    Lanes.absorb ⟨round l.first a, round l.second b, round l.third c, round l.fourth d⟩ rest
  | l, rest => (l, rest)

def Lanes.join (l : Lanes) : UInt32 :=
  rotateLeft l.first 1 + rotateLeft l.second 7 + rotateLeft l.third 12 + rotateLeft l.fourth 18

def mixWord (h w : UInt32) : UInt32 := rotateLeft (h + w * prime3) 17 * prime4

def mixByte (h : UInt32) (b : UInt8) : UInt32 := rotateLeft (h + b.toUInt32 * prime5) 11 * prime1

def avalanche (h : UInt32) : UInt32 :=
  let h := (h ^^^ (h >>> 15)) * prime2
  let h := (h ^^^ (h >>> 13)) * prime3
  h ^^^ (h >>> 16)

/-- The hash of a byte string. Fewer than sixteen bytes do not reach the lanes. -/
def hash (data : List UInt8) : UInt32 :=
  let (ws, tail) := words data
  let (start, rest) :=
    if data.length < 16 then (prime5, ws)
    else
      let (lanes, rest) := Lanes.start.absorb ws
      (lanes.join, rest)
  avalanche (tail.foldl mixByte (rest.foldl mixWord (start + UInt32.ofNat data.length)))

end SnapshotCatalog.Hash
