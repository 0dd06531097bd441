import PatternTraversal.Digest.LittleEndian

/-!
# XXH64

The 64-bit digest XXH64 with seed 0. Whole stripes of 32 bytes feed four accumulators; the bytes
left over are mixed in by words, then a half word, then single bytes, and a final avalanche spreads
every bit.
-/

namespace PatternTraversal

namespace Xxh64

/-- The first of the odd constants that the mixing multiplies by. -/
def prime1 : UInt64 := 0x9E3779B185EBCA87

/-- The second constant. -/
def prime2 : UInt64 := 0xC2B2AE3D27D4EB4F

/-- The third constant. -/
def prime3 : UInt64 := 0x165667B19E3779F9

/-- The fourth constant. -/
def prime4 : UInt64 := 0x85EBCA77C2B2AE63

/-- The fifth constant. -/
def prime5 : UInt64 := 0x27D4EB2F165667C5

/-- Turn a word to the left; the count lies strictly between 0 and 64. -/
def rotate (word count : UInt64) : UInt64 := word <<< count ||| word >>> (64 - count)

/-- Take one word into an accumulator. -/
def round (lane word : UInt64) : UInt64 := rotate (lane + word * prime2) 31 * prime1

/-- The four accumulators. -/
structure Lanes where
  first : UInt64
  second : UInt64
  third : UInt64
  fourth : UInt64
deriving DecidableEq, Repr

namespace Lanes

/-- The accumulators before any stripe. -/
def start : Lanes := ⟨prime1 + prime2, prime2, 0, 0 - prime1⟩

/-- Take one stripe of 32 bytes into the accumulators. -/
def absorb (lanes : Lanes) (stripe : List UInt8) : Lanes :=
  let word (i : Nat) : UInt64 := LittleEndian.word ((stripe.drop (8 * i)).take 8)
  ⟨round lanes.first (word 0), round lanes.second (word 1), round lanes.third (word 2),
    round lanes.fourth (word 3)⟩

/-- Merge one accumulator into the digest. -/
def mergeLane (digest lane : UInt64) : UInt64 := (digest ^^^ round 0 lane) * prime1 + prime4

/-- The digest of the accumulators. -/
def merge (lanes : Lanes) : UInt64 :=
  let sum := rotate lanes.first 1 + rotate lanes.second 7 + rotate lanes.third 12 +
    rotate lanes.fourth 18
  mergeLane (mergeLane (mergeLane (mergeLane sum lanes.first) lanes.second) lanes.third)
    lanes.fourth

/-- Take all whole stripes into the accumulators; the bytes left over are returned. -/
def absorbAll (lanes : Lanes) (bytes : List UInt8) : Lanes × List UInt8 :=
  if 32 ≤ bytes.length then (lanes.absorb (bytes.take 32)).absorbAll (bytes.drop 32)
  else (lanes, bytes)
termination_by bytes.length
decreasing_by
  simp only [List.length_drop]
  omega

end Lanes

/-- Mix the bytes behind the last stripe into the digest. -/
def mixTail (digest : UInt64) (bytes : List UInt8) : UInt64 :=
  if 8 ≤ bytes.length then
    let word := LittleEndian.word (bytes.take 8)
    mixTail (rotate (digest ^^^ round 0 word) 27 * prime1 + prime4) (bytes.drop 8)
  else if 4 ≤ bytes.length then
    let word := LittleEndian.word (bytes.take 4)
    mixTail (rotate (digest ^^^ word * prime1) 23 * prime2 + prime3) (bytes.drop 4)
  else
    match bytes with
    | [] => digest
    | byte :: rest => mixTail (rotate (digest ^^^ byte.toUInt64 * prime5) 11 * prime1) rest
termination_by bytes.length
decreasing_by
  all_goals simp only [List.length_drop, List.length_cons] at *
  all_goals omega

/-- Spread every bit of the digest. -/
def avalanche (digest : UInt64) : UInt64 :=
  let digest := (digest ^^^ digest >>> 33) * prime2
  let digest := (digest ^^^ digest >>> 29) * prime3
  digest ^^^ digest >>> 32

/-- Digest of a list of bytes. -/
def hash (bytes : List UInt8) : UInt64 :=
  let (lanes, tail) := Lanes.start.absorbAll bytes
  let digest := if 32 ≤ bytes.length then lanes.merge else prime5
  avalanche (mixTail (digest + UInt64.ofNat bytes.length) tail)

/-- A digest as sixteen lower-case hexadecimal digits. -/
def render (digest : UInt64) : String :=
  let digits := Nat.toDigits 16 digest.toNat
  String.ofList (List.replicate (16 - digits.length) '0' ++ digits)

example : hash [] = 0xEF46DB3751D8E999 := by decide +kernel

end Xxh64

end PatternTraversal
