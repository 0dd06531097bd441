import PatternTraversal.Alias

/-!
# Errors of the matrix algebra

Chains of operands can be malformed, matrices can disagree in shape, and a mask can be unknown. Each
cause carries what its text mentions.
-/

namespace PatternTraversal

/-- Why an operand chain or a matrix operation is refused. -/
inductive AlgebraError where
  /-- An expression needs at least one operand. -/
  | emptyChain
  /-- The operand at `position` is indexed by `found`, and the one before it ends at `expected`. -/
  | misaligned (position : Nat) (expected found : Alias)
  /-- The chain spans other endpoints than the declared ones. -/
  | endpointMismatch (source target chainSource chainTarget : Alias)
  /-- The two shapes do not fit the operation. -/
  | shapeMismatch (leftRows leftCols rightRows rightCols : UInt64)
  /-- The cell lies outside the matrix. -/
  | indexOutOfBounds (row col rows cols : UInt64)
  /-- No matrix is registered under the mask's name. -/
  | unknownMask (mask : String)
deriving DecidableEq, Repr

namespace AlgebraError

/-- Machine-readable name of the cause. -/
def code : AlgebraError → String
  | emptyChain => "EmptyChain"
  | misaligned .. => "Misaligned"
  | endpointMismatch .. => "EndpointMismatch"
  | shapeMismatch .. => "ShapeMismatch"
  | indexOutOfBounds .. => "IndexOutOfBounds"
  | unknownMask _ => "UnknownMask"

/-- Decimal text of a word. -/
private def decimal (word : UInt64) : String := Nat.repr word.toNat

/-- Text for a reader. -/
def message : AlgebraError → String
  | emptyChain => "algebraic expression requires at least one operand"
  | misaligned position expected found =>
    "operand " ++ Nat.repr position ++ " expects rows of '" ++ expected.name ++
      "' but is indexed by '" ++ found.name ++ "'"
  | endpointMismatch source target chainSource chainTarget =>
    "operand chain spans '" ++ chainSource.name ++ "'->'" ++ chainTarget.name ++
      "' but expression declares '" ++ source.name ++ "'->'" ++ target.name ++ "'"
  | shapeMismatch leftRows leftCols rightRows rightCols =>
    "shape mismatch: " ++ decimal leftRows ++ "x" ++ decimal leftCols ++ " vs " ++
      decimal rightRows ++ "x" ++ decimal rightCols
  | indexOutOfBounds row col rows cols =>
    "index (" ++ decimal row ++ ", " ++ decimal col ++ ") out of bounds for " ++
      decimal rows ++ "x" ++ decimal cols ++ " matrix"
  | unknownMask mask => "no matrix registered for mask '" ++ mask ++ "'"

end AlgebraError

end PatternTraversal
