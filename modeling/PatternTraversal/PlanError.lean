import PatternTraversal.Alias

/-!
# Errors of ordering and planning

An expression may mention an alias that the pattern does not declare, the expressions may fall into
pieces that nothing connects, and an order may be used on a list of another length.
-/

namespace PatternTraversal

/-- Part that an alias plays in an expression. -/
inductive Role where
  | source
  | target
  | edge
deriving DecidableEq, Repr

/-- Word for a role in messages. -/
def Role.name : Role → String
  | source => "source"
  | target => "destination"
  | edge => "edge"

/-- Why expressions cannot be ordered, or an order cannot be used. -/
inductive PlanError where
  /-- The pattern does not declare an alias of some expression. -/
  | unknownAlias (ident : Alias) (role : Role)
  /-- Nothing connects the counted components, and splitting is disabled. -/
  | disconnectedPattern (components : Nat)
  /-- The order is for another number of expressions. -/
  | arrangementMismatch (expected found : Nat)
deriving DecidableEq, Repr

namespace PlanError

/-- Machine-readable name of the cause. -/
def code : PlanError → String
  | unknownAlias .. => "UnknownAlias"
  | disconnectedPattern _ => "DisconnectedPattern"
  | arrangementMismatch .. => "ArrangementMismatch"

/-- Text for a reader. -/
def message : PlanError → String
  | unknownAlias ident role =>
    role.name ++ " alias '" ++ ident.name ++ "' is not part of the query graph"
  | disconnectedPattern components =>
    "expressions span " ++ Nat.repr components ++ " disconnected components"
  | arrangementMismatch expected found =>
    "arrangement covers " ++ Nat.repr expected ++ " expressions but " ++ Nat.repr found ++
      " were supplied"

/-- Text for a reader, with the code in front. -/
def coded (error : PlanError) : String := "[" ++ error.code ++ "] " ++ error.message

end PlanError

end PatternTraversal
