/-!
# Options of the ordering

Three settings tune the choice of an order: how large a unit may be and still be searched
completely, what an expression that only filters is worth, and whether pieces that nothing connects
may be ordered one after the other.
-/

namespace PatternTraversal

/-- Settings of the ordering. -/
structure Options where
  /-- Largest unit searched completely; larger ones are ordered greedily. -/
  exhaustiveLimit : Nat
  /-- Score of an expression that only filters one entity. -/
  labelOnlyBonus : Int
  /-- Whether disconnected pieces are ordered one after the other instead of being refused. -/
  splitComponents : Bool
deriving DecidableEq, Repr

namespace Options

/-- Limit used when none is given. -/
def defaultLimit : Nat := 8

/-- Largest limit in effect; a larger setting is used as this one. -/
def maxLimit : Nat := 10

/-- Settings used when none are given. -/
def default : Options := ⟨defaultLimit, 1, true⟩

/-- Largest unit that is searched completely under these settings. -/
def searchLimit (options : Options) : Nat := min options.exhaustiveLimit maxLimit

end Options

end PatternTraversal
