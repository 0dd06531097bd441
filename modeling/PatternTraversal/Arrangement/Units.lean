import PatternTraversal.Arrangement.Components
import PatternTraversal.Arrangement.Context

/-!
# Search units

Components that touch a resolved alias are connected through it, so their expressions may be mixed:
they form one unit, which takes in one further component to open the order. Every other component is
a unit of its own. Units with a constrained alias come first, then those with the earliest member.
-/

namespace PatternTraversal

/-- Expressions ordered by one search, as numbers below `n`. -/
structure SearchUnit (n : Nat) where
  /-- Members, ascending. -/
  members : List (Fin n)
  /-- Members that may come first; an empty list admits all of them. -/
  entry : List (Fin n)
deriving DecidableEq, Repr

/-- Search units of a list of `n` expressions. -/
structure Units (n : Nat) where
  /-- Units in the order in which they are placed. -/
  units : List (SearchUnit n)
  /-- Number of components that touch no resolved alias. -/
  unanchored : Nat
deriving DecidableEq, Repr

namespace Units

/-- Whether some member of a component touches an alias with a property. -/
def touches {n : Nat} (entities : Fin n → List Alias) (test : Alias → Bool)
    (members : List (Fin n)) : Bool :=
  members.any fun i => (entities i).any test

/-- The unit of the components that touch a resolved alias, with the component that opens it. -/
def anchoredUnit {n : Nat} (anchored : List (List (Fin n))) (opener : List (Fin n)) :
    SearchUnit n :=
  ⟨(anchored.flatten ++ opener).mergeSort, opener⟩

/-- Units of components that are listed by their first members. -/
def ofComponents {n : Nat} (entities : Fin n → List Alias) (isBound isFiltered : Alias → Bool)
    (components : List (List (Fin n))) : Units n :=
  let (anchored, free) := components.partition (touches entities isBound)
  let (filtered, plain) := free.partition (touches entities isFiltered)
  let ranked := filtered ++ plain
  let alone (members : List (Fin n)) : SearchUnit n := ⟨members, []⟩
  let units :=
    match anchored, ranked with
    | [], ranked => ranked.map alone
    | anchored, [] => [anchoredUnit anchored []]
    | anchored, opener :: rest => anchoredUnit anchored opener :: rest.map alone
  ⟨units, ranked.length⟩

end Units

/-- Search units of a list of expressions. -/
def Context.units (ctx : Context) (exps : List Expression) : Units exps.length :=
  .ofComponents (fun i => (exps.get i).entities) ctx.isBound ctx.isFiltered (partition exps)

end PatternTraversal
