import PatternTraversal.Arrangement.Score
import PatternTraversal.Condition
import PatternTraversal.Expression.Basic
import PatternTraversal.Options.Basic
import PatternTraversal.Pattern
import PatternTraversal.PlanError

/-!
# Context of an ordering

What the choice of an order looks at: the pattern, the aliases that a predicate constrains, the
aliases that are resolved beforehand, and the options. From these follow which expression may come
next and what an order is worth: the earlier a constrained or resolved alias is used, the better.
-/

namespace PatternTraversal

/-- Inputs of one ordering. -/
structure Context where
  pattern : Pattern
  /-- Aliases that some predicate constrains. -/
  filtered : AliasSet
  /-- Aliases resolved beforehand. -/
  bound : AliasSet
  options : Options

/-- Aliases of an expression with their roles, in the order in which they are checked. -/
def Expression.roles (e : Expression) : List (Alias × Role) :=
  [(e.source, .source), (e.target, .target)] ++ (e.edge.map (·, Role.edge)).toList

namespace Context

/-- The context of an optional predicate tree. -/
def ofInputs (pattern : Pattern) (filter : Option Condition) (bound : AliasSet)
    (options : Options) : Context :=
  ⟨pattern, Condition.aliasesOf filter, bound, options⟩

/-- Whether some predicate constrains an alias. -/
def isFiltered (ctx : Context) (ident : Alias) : Bool := ctx.filtered.contains ident

/-- Whether an alias is resolved beforehand. -/
def isBound (ctx : Context) (ident : Alias) : Bool := ctx.bound.contains ident

/-- Refuse expressions that mention an undeclared alias, naming the first one. -/
def check (ctx : Context) (exps : List Expression) : Except PlanError Unit :=
  match (exps.flatMap Expression.roles).find? fun entry => !ctx.pattern.contains entry.1 with
  | some (ident, role) => .error (.unknownAlias ident role)
  | none => .ok ()

/-- Whether an expression touches a resolved alias or one of those in `placed`. -/
def connects (ctx : Context) (e : Expression) (placed : Alias → Bool) : Bool :=
  e.entities.any fun ident => ctx.isBound ident || placed ident

/-- Whether an expression may follow the ones placed so far; anything may come first. -/
def validNext (ctx : Context) (placed : List Expression) (e : Expression) : Bool :=
  placed.isEmpty || ctx.connects e fun ident => placed.any (·.references ident)

/-- Interest of an alias: one for a predicate on it, one for being resolved beforehand. -/
def aliasInterest (ctx : Context) (ident : Alias) : Nat :=
  (ctx.isFiltered ident).toNat + (ctx.isBound ident).toNat

/-- Interest of the entities of an expression. -/
def interest (ctx : Context) (e : Expression) : Nat :=
  e.entities.foldr (fun ident total => ctx.aliasInterest ident + total) 0

/-- Flat score of an expression that only filters one entity. -/
def bonus (ctx : Context) (e : Expression) : Int :=
  if e.isLabelOnly then ctx.options.labelOnlyBonus else 0

/-- Score of an expression whose interest counts `weight` times. -/
def gain (ctx : Context) (weight : Int) (e : Expression) : Int :=
  weight * ctx.interest e + ctx.bonus e

/-- Score of an expression at a position among `total`: the earlier, the larger the weight. -/
def contribution (ctx : Context) (e : Expression) (position total : Nat) : Int :=
  ctx.gain (total - position : Nat) e

/-- Scores of the first expressions of an order in which `remaining` are left. -/
def gainsFrom (ctx : Context) (remaining : Nat) : List Expression → List Int
  | [] => []
  | e :: rest => ctx.gain remaining e :: ctx.gainsFrom (remaining - 1) rest

/-- Scores of the expressions of an order. -/
def gains (ctx : Context) (exps : List Expression) : List Int := ctx.gainsFrom exps.length exps

/-- Score of an order. -/
def score (ctx : Context) (exps : List Expression) : Int := Score.total (ctx.gains exps)

/-- Score of an expression at a position given as a word, the weight being a signed word; none when
a sum on the way leaves the range of signed words. -/
def wordContribution? (ctx : Context) (e : Expression) (position total : UInt64) : Option Int :=
  let weight := (UInt64.ofNat (total.toNat - position.toNat)).toInt64.toInt
  let terms := List.replicate (ctx.interest e) weight ++ [ctx.bonus e]
  if Score.sumsFit terms then some (ctx.gain weight e) else none

/-- Any expression may come first. -/
theorem validNext_nil (ctx : Context) (e : Expression) : ctx.validNext [] e = true := rfl

end Context

end PatternTraversal
