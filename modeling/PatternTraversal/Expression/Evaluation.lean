import PatternTraversal.Expression.Basic
import PatternTraversal.Matrix.Semiring

/-!
# Evaluating expressions

A resolver gives the stored matrix behind each operand. The chain is multiplied from left to right
over the reachability semiring, each operand being resolved only when its turn comes, so the error
of an earlier factor or product wins.
-/

namespace PatternTraversal

namespace Expression

/-- The stored matrix behind an operand, in stored orientation. -/
abbrev Resolver := Operand → Except AlgebraError SparseMatrix

/-- The matrix of an operand as used in the product. -/
def factor (resolve : Resolver) (operand : Operand) : Except AlgebraError SparseMatrix :=
  match resolve operand with
  | .error error => .error error
  | .ok stored => .ok (if operand.isTransposed then stored.transpose else stored)

/-- Multiply a matrix by the factors of a chain. -/
def evaluateFrom (resolve : Resolver) (left : SparseMatrix) :
    List Operand → Except AlgebraError SparseMatrix
  | [] => .ok left
  | operand :: rest =>
    match factor resolve operand with
    | .error error => .error error
    | .ok right =>
      match left.multiply .anyPair right with
      | .error error => .error error
      | .ok product => evaluateFrom resolve product rest

/-- The product of an expression; a single factor keeps its stored values. -/
def evaluate (resolve : Resolver) (e : Expression) : Except AlgebraError SparseMatrix :=
  match e.operands with
  | [] => .error .emptyChain
  | operand :: rest =>
    match factor resolve operand with
    | .error error => .error error
    | .ok left => evaluateFrom resolve left rest

end Expression

end PatternTraversal
