import PatternTraversal.Arrangement.Basic
import PatternTraversal.Condition
import PatternTraversal.Digest.Xxh64
import PatternTraversal.Expression.Encoding

/-!
# Plans

An arrangement says when each expression runs; a plan also says from which end. An expression whose
target is resolved while its source is not is transposed, so that evaluation extends from what is
already known. A fresh piece starts from its constrained end when only one end is constrained.
-/

namespace PatternTraversal

/-- One expression of a plan, as it is evaluated. -/
structure PlanStep where
  expression : Expression
  /-- Place of the expression in the input. -/
  index : Nat
  /-- Whether the input expression was transposed. -/
  transposed : Bool
  /-- Whether a new piece starts here. -/
  root : Bool
deriving DecidableEq, Repr

/-- Ordered and oriented expressions. -/
structure Plan where
  steps : List PlanStep
  score : Int
  /-- Digest of the oriented expressions. -/
  hash : UInt64
deriving DecidableEq, Repr

namespace Plan

/-- Whether an expression starts from its target. -/
def startsFromTarget (filtered resolved : AliasSet) (e : Expression) : Bool :=
  if resolved.contains e.source then false
  else if resolved.contains e.target then true
  else filtered.contains e.target && !filtered.contains e.source

/-- The expression oriented as its step evaluates it. -/
def orient (transposed : Bool) (e : Expression) : Expression :=
  if transposed then e.transpose else e

/-- Steps of the ordered expressions from a position on, with their places in the input. -/
def stepsFrom (roots : List Nat) (filtered : AliasSet) :
    (position : Nat) → AliasSet → List (Expression × Nat) → List PlanStep
  | _, _, [] => []
  | position, resolved, (e, index) :: rest =>
    let transposed := startsFromTarget filtered resolved e
    { expression := orient transposed e
      index
      transposed
      root := roots.contains position } ::
    stepsFrom roots filtered (position + 1) ((resolved.insert e.source).insert e.target) rest

/-- The plan of an arrangement. -/
def build (exps : List Expression) (a : Arrangement) (filter : Option Condition)
    (bound : AliasSet) : Except PlanError Plan :=
  match a.apply exps with
  | .error error => .error error
  | .ok ordered =>
    let steps := stepsFrom a.roots (Condition.aliasesOf filter) 0 bound (ordered.zip a.order)
    .ok
      { steps
        score := a.score
        hash := Xxh64.hash (steps.flatMap fun step => step.expression.encode) }

end Plan

end PatternTraversal
