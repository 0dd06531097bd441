import PatternTraversal.Expression.Basic
import PatternTraversal.PlanError

/-!
# Arrangements

The result of an ordering: which expression of a list comes when, where a new piece starts, and how
the order was found. It names expressions by their places, so it can be used on any list of its
length.
-/

namespace PatternTraversal

/-- How an order was found. -/
inductive SearchMode where
  /-- There was nothing to choose. -/
  | trivial
  /-- Every unit was searched completely. -/
  | exhaustive
  /-- Some unit was ordered greedily. -/
  | greedy
deriving DecidableEq, Repr

/-- Counts of one ordering. -/
structure SearchStats where
  /-- Units ordered. -/
  components : Nat
  /-- Complete orders scored. -/
  scored : Nat
  /-- Incomplete orders that nothing could follow. -/
  deadEnds : Nat
  /-- Units ordered greedily. -/
  greedyComponents : Nat
deriving DecidableEq, Repr

/-- An order of the expressions of a list. -/
structure Arrangement where
  /-- Places in the list, first expression first. -/
  order : List Nat
  score : Int
  /-- Positions in the order where a new piece starts. -/
  roots : List Nat
  mode : SearchMode
  stats : SearchStats
  /-- Whether every score formed on the way fits a signed 64-bit word. -/
  scoresFit : Bool
deriving DecidableEq, Repr

namespace Arrangement

/-- Number of expressions in the order. -/
def length (a : Arrangement) : Nat := a.order.length

/-- Refuse a list of another length. -/
def checkLength (a : Arrangement) (exps : List Expression) : Except PlanError Unit :=
  if exps.length = a.length then .ok () else .error (.arrangementMismatch a.length exps.length)

/-- The expressions of a list in this order, each looked up at its place. -/
def apply (a : Arrangement) (exps : List Expression) : Except PlanError (List Expression) :=
  match a.checkLength exps with
  | .error error => .error error
  | .ok () => .ok (a.order.filterMap fun i => exps[i]?)

/-- Move the expressions at the listed places out of their slots; an empty slot gives nothing. -/
def takeSlots : List Nat → List (Option Expression) → List Expression
  | [], _ => []
  | i :: rest, slots => (slots[i]?.join).toList ++ takeSlots rest (slots.set i none)

/-- The expressions of a list in this order, each moved out of its place. -/
def intoOrdered (a : Arrangement) (exps : List Expression) : Except PlanError (List Expression) :=
  match a.checkLength exps with
  | .error error => .error error
  | .ok () => .ok (takeSlots a.order (exps.map some))

/-- An arrangement accepts exactly the lists of its length. -/
theorem checkLength_eq_ok_iff (a : Arrangement) (exps : List Expression) :
    a.checkLength exps = .ok () ↔ exps.length = a.length := by
  unfold checkLength
  split <;> simp [*]

end Arrangement

end PatternTraversal
