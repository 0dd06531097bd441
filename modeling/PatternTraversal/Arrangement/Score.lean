/-!
# Range of scores

Scores are exact integers. A score kept in a signed 64-bit word is the exact one as long as every
partial sum on the way to it fits such a word; the tests here say when that is so.
-/

namespace PatternTraversal

namespace Score

/-- Whether a score fits a signed 64-bit word: the word reads back as the score. -/
def fits (score : Int) : Bool := (Int64.ofInt score).toInt == score

/-- Sum of scores. -/
def total : List Int → Int
  | [] => 0
  | term :: rest => term + total rest

/-- Whether `start` and every sum of it with some of the first terms fits a word. -/
def sumsFitFrom (start : Int) : List Int → Bool
  | [] => fits start
  | term :: rest => fits start && sumsFitFrom (start + term) rest

/-- Whether every sum of the first terms fits a word. -/
def sumsFit (terms : List Int) : Bool := sumsFitFrom 0 terms

/-- A score fits exactly when it lies in the range of a signed 64-bit word. -/
theorem fits_iff (score : Int) : fits score = true ↔
    -9223372036854775808 ≤ score ∧ score ≤ 9223372036854775807 := by
  simp only [fits, beq_iff_eq, Int64.toInt_ofInt, Int64.size, Int.bmod]
  constructor
  · intro h
    split at h <;> omega
  · intro h
    split <;> omega

end Score

end PatternTraversal
