import PatternTraversal.Alias
import PatternTraversal.Value

/-!
# Conditions

Predicate trees over the entities of a pattern. A comparison constrains the aliases its two sides
mention; a tree is read four ways: as the set of aliases it constrains, as a test for one alias, as
a number of comparisons, and as the list of its top-level conjuncts.
-/

namespace PatternTraversal

/-- Relation tested by a comparison. -/
inductive Comparison where
  | eq
  | ne
  | lt
  | le
  | gt
  | ge
deriving DecidableEq, Repr

/-- Boolean connective joining two conditions. -/
inductive Connective where
  | and
  | or
deriving DecidableEq, Repr

/-- One side of a comparison. -/
inductive Term where
  /-- Property of a pattern entity. -/
  | property (ident : Alias) (name : String)
  /-- The entity itself, for identity comparisons. -/
  | entity (ident : Alias)
  /-- Constant. -/
  | literal (value : Value)
deriving BEq, Repr

/-- Alias a term mentions. -/
def Term.alias? : Term → Option Alias
  | property ident _ => some ident
  | entity ident => some ident
  | literal _ => none

/-- Predicate tree over pattern entities. -/
inductive Condition where
  | compare (relation : Comparison) (lhs rhs : Term)
  | join (connective : Connective) (left right : Condition)
  | not (child : Condition)
deriving BEq, Repr

namespace Condition

/-- Conjunction of two conditions. -/
def and (left right : Condition) : Condition := join .and left right

/-- Disjunction of two conditions. -/
def or (left right : Condition) : Condition := join .or left right

/-- Conjunction of a list, nested to the left; the empty list has none. -/
def all : List Condition → Option Condition
  | [] => none
  | first :: rest => some (rest.foldl and first)

/-- Add every alias constrained beneath a condition to a set. -/
def addAliases : Condition → AliasSet → AliasSet
  | compare _ lhs rhs, known => (known.insertMany lhs.alias?.toList).insertMany rhs.alias?.toList
  | join _ left right, known => right.addAliases (left.addAliases known)
  | not child, known => child.addAliases known

/-- Aliases constrained anywhere in a condition. -/
def aliases (condition : Condition) : AliasSet := condition.addAliases ∅

/-- Whether some comparison constrains `ident`. -/
def references (ident : Alias) : Condition → Bool
  | compare _ lhs rhs => lhs.alias? == some ident || rhs.alias? == some ident
  | join _ left right => left.references ident || right.references ident
  | not child => child.references ident

/-- Number of comparisons. -/
def comparisonCount : Condition → Nat
  | compare .. => 1
  | join _ left right => left.comparisonCount + right.comparisonCount
  | not child => child.comparisonCount

/-- Independent conjuncts: the tree split at every top-level conjunction, in order. -/
def conjuncts : Condition → List Condition
  | join .and left right => left.conjuncts ++ right.conjuncts
  | condition => [condition]

/-- Aliases constrained by an optional condition. -/
def aliasesOf : Option Condition → AliasSet
  | none => ∅
  | some condition => condition.aliases

/-- A conjunction splits into the conjuncts of its sides. -/
theorem conjuncts_and (left right : Condition) :
    (and left right).conjuncts = left.conjuncts ++ right.conjuncts := by
  rw [and, conjuncts]

end Condition

end PatternTraversal
