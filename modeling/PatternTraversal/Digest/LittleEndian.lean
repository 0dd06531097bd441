/-!
# Little-endian words

Bytes of 64-bit words, the lowest one first.
-/

namespace PatternTraversal

namespace LittleEndian

/-- The first `count` bytes of a word, the lowest one first. -/
def bytes : (count : Nat) → UInt64 → List UInt8
  | 0, _ => []
  | count + 1, word => word.toUInt8 :: bytes count (word >>> 8)

/-- The word of a list of bytes, the lowest one first. -/
def word : List UInt8 → UInt64
  | [] => 0
  | byte :: rest => byte.toUInt64 ||| word rest <<< 8

/-- The eight bytes of a word. -/
def encode (n : UInt64) : List UInt8 := bytes 8 n

/-- The requested number of bytes is written. -/
@[simp] theorem length_bytes (count : Nat) (n : UInt64) : (bytes count n).length = count := by
  induction count generalizing n with
  | zero => rfl
  | succ count ih => simp [bytes, ih]

/-- A word takes eight bytes. -/
theorem length_encode (n : UInt64) : (encode n).length = 8 := length_bytes 8 n

end LittleEndian

end PatternTraversal
