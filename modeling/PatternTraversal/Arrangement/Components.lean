import PatternTraversal.Arrangement.DisjointSet
import PatternTraversal.Expression.Basic

/-!
# Components

Expressions that share a source or target alias, directly or through others, form a component. One
pass links each expression to the first one seen with each of its aliases, which is enough to join
all that mention the alias.
-/

namespace PatternTraversal

namespace Components

/-- State of the pass over the expressions. -/
structure Linking (n : Nat) where
  sets : DisjointSet n
  /-- First expression seen with each alias. -/
  first : AliasMap (Fin n)

namespace Linking

/-- Nothing seen yet. -/
def start (n : Nat) : Linking n := ⟨.singletons n, ∅⟩

/-- Expression `i` mentions an alias. -/
def mention {n : Nat} (linking : Linking n) (i : Fin n) (ident : Alias) : Linking n :=
  match linking.first[ident]? with
  | some other => { linking with sets := linking.sets.union i other }
  | none => { linking with first := linking.first.insert ident i }

end Linking

/-- Expressions linked by their aliases; `entities i` are the aliases of expression `i`. -/
def link {n : Nat} (entities : Fin n → List Alias) : DisjointSet n :=
  let visit (linking : Linking n) (i : Fin n) : Linking n :=
    (entities i).foldl (fun linking ident => Linking.mention linking i ident) linking
  ((List.finRange n).foldl visit (Linking.start n)).sets

end Components

/-- Components of a list of expressions: each one ascending, in the order of their first members. -/
def partition (exps : List Expression) : List (List (Fin exps.length)) :=
  (Components.link fun i : Fin exps.length => (exps.get i).entities).classes

end PatternTraversal
