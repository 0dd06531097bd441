import Std.Data.ExtTreeMap
import Std.Data.ExtTreeSet

/-!
# Aliases

Node and relationship variables of one graph pattern share a single namespace of aliases. Aliases
are ordered by name, code point by code point, so every traversal of a map or set keyed by them is
deterministic.
-/

namespace PatternTraversal

/-- Name of a node or relationship variable within one pattern. -/
structure Alias where
  name : String
deriving DecidableEq, Repr, Inhabited

namespace Alias

/-- Aliases compare as their names do. -/
instance instOrd : Ord Alias := ⟨compareOn Alias.name⟩

instance instTransOrd : Std.TransOrd Alias :=
  inferInstanceAs (Std.TransCmp (compareOn Alias.name))

instance instLawfulEqOrd : Std.LawfulEqOrd Alias where
  eq_of_compare {a b} h := by
    have h : compare a.name b.name = .eq := h
    cases a
    cases b
    exact congrArg Alias.mk (Std.LawfulEqCmp.eq_of_compare h)

end Alias

/-- Finite map keyed by aliases; two maps with the same look-ups are equal. -/
abbrev AliasMap (β : Type) := Std.ExtTreeMap Alias β

/-- Finite set of aliases, listed in alias order. -/
abbrev AliasSet := Std.ExtTreeSet Alias

end PatternTraversal
