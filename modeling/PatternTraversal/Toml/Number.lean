import PatternTraversal.Toml.Quoted

/-!
# Numbers

Integers are decimal with an optional sign, or hexadecimal, octal or binary without one; they fit a
signed 64-bit word. A decimal point or an exponent makes a float. Digits may be grouped by single
underscores. A float that rounds to positive infinity has to be written as such.
-/

namespace PatternTraversal

namespace Toml

/-- An optional sign; whether it is negative. -/
def sign : Reader Bool :=
  (Reader.char '-' *> pure true) <|> (Reader.char '+' *> pure false) <|> pure false

/-- Digits behind a first one, grouped by single underscores. -/
def moreDigits (test : Char → Bool) : Reader (List Char) :=
  Reader.many (Reader.satisfy test <|> (Reader.char '_' *> Reader.satisfy test))

/-- One or more digits, grouped by single underscores. -/
def digits (test : Char → Bool) : Reader (List Char) := do
  let first ← Reader.satisfy test
  let rest ← moreDigits test
  pure (first :: rest)

/-- The number that digits stand for in a base. -/
def numberOf (base : Nat) (digits : List Char) : Nat :=
  digits.foldl (fun number c => base * number + (hexDigit? c).getD 0) 0

/-- An optional sign and decimal digits without leading zeros. -/
def signedDigits : Reader (Bool × List Char) := do
  let negative ← sign
  let digits ←
    (do
      let first ← Reader.satisfy fun c => c.isDigit && c ≠ '0'
      let rest ← moreDigits Char.isDigit
      pure (first :: rest)) <|>
    (do pure [← Reader.satisfy Char.isDigit])
  pure (negative, digits)

/-- Digits of a base behind the mark of the base. -/
def basedNumber (mark : Char) (base : Nat) : Reader Int := do
  Reader.literal ['0', mark]
  let digits ← digits fun c => (hexDigit? c).any (· < base)
  pure (numberOf base digits)

/-- A decimal integer. -/
def decimalNumber : Reader Int := do
  let (negative, digits) ← signedDigits
  let magnitude : Int := numberOf 10 digits
  pure (if negative then -magnitude else magnitude)

/-- An integer that fits a signed 64-bit word. -/
def integer : Reader Int :=
  Reader.guarded
    (basedNumber 'x' 16 <|> basedNumber 'o' 8 <|> basedNumber 'b' 2 <|> decimalNumber)
    fun n => -9223372036854775808 ≤ n && n ≤ 9223372036854775807

/-- The exponent of a float. -/
def exponent : Reader Int := do
  let _ ← Reader.satisfy fun c => c = 'e' || c = 'E'
  let negative ← sign
  let magnitude : Int := numberOf 10 (← digits Char.isDigit)
  pure (if negative then -magnitude else magnitude)

/-- The digits behind the point of a float. -/
def fraction : Reader (List Char) := Reader.char '.' *> digits Char.isDigit

/-- Least number that rounds to infinity: halfway between the largest double and `2 ^ 1024`. -/
def overflowThreshold : Nat := Nat.pow 2 1024 - Nat.pow 2 970

/-- Whether digits, scaled by a power of ten, round to infinity. Only a number whose leading digit
stands in the place of `10 ^ 308` has to be compared exactly. -/
def overflows (digits : List Char) (scale : Int) : Bool :=
  let significant := digits.dropWhile (· = '0')
  let places : Int := significant.length + scale
  if significant.isEmpty || places < 309 then false
  else if 309 < places then true
  else
    let n := numberOf 10 significant
    overflowThreshold * Nat.pow 10 (-scale).toNat ≤ n * Nat.pow 10 scale.toNat

/-- A float in digits. -/
def digitFloat : Reader Unit := do
  let (negative, whole) ← signedDigits
  let (behind, scale) ←
    (do pure ([], ← exponent)) <|>
    (do
      let behind ← fraction
      pure (behind, (← optional exponent).getD 0))
  if !negative && overflows (whole ++ behind) (scale - behind.length) then failure else pure ()

/-- Infinity or no number, with an optional sign. -/
def namedFloat : Reader Unit := do
  let _ ← sign
  Reader.literal ['i', 'n', 'f'] <|> Reader.literal ['n', 'a', 'n']

/-- A float. -/
def float : Reader Unit := digitFloat <|> namedFloat

end Toml

end PatternTraversal
