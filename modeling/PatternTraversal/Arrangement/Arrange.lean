import PatternTraversal.Arrangement.Basic
import PatternTraversal.Arrangement.Search

/-!
# Arranging expressions

The units of a list are ordered one after the other; a unit beyond the limit is ordered greedily. A
new piece starts where a unit starts. Undeclared aliases are refused first, then disconnected pieces
unless they may be split.
-/

namespace PatternTraversal

namespace Context

/-- The order of one unit, and what the search counted. -/
def searchUnit (ctx : Context) {exps : List Expression} (unit : SearchUnit exps.length) :
    List Nat × Progress :=
  let candidates := unit.candidates ctx
  let progress := Progress.start (.start candidates.length)
  if unit.members.length ≤ ctx.options.searchLimit then Search.exhaustive candidates progress
  else Search.greedy candidates progress

/-- The order of at most one expression. -/
def arrangeTrivially (ctx : Context) (exps : List Expression) : Arrangement :=
  let order := List.range exps.length
  { order
    score := ctx.score exps
    roots := order.take 1
    mode := .trivial
    stats := ⟨exps.length, 0, 0, 0⟩
    scoresFit := Score.sumsFit (ctx.gains exps) }

/-- Order of the units placed so far. -/
structure Placement where
  order : List Nat
  roots : List Nat
  scored : Nat
  deadEnds : Nat
  greedyComponents : Nat
  fits : Bool
deriving DecidableEq, Repr

/-- Place one unit behind the ones placed so far. -/
def placeUnit (ctx : Context) {exps : List Expression} (placement : Placement)
    (unit : SearchUnit exps.length) : Placement :=
  let (order, progress) := ctx.searchUnit unit
  { order := placement.order ++ order
    roots := placement.roots ++ [placement.order.length]
    scored := placement.scored + progress.scored
    deadEnds := placement.deadEnds + progress.deadEnds
    greedyComponents := placement.greedyComponents +
      (if unit.members.length ≤ ctx.options.searchLimit then 0 else 1)
    fits := placement.fits && progress.fits }

/-- Place all units, one behind the other. -/
def placeUnits (ctx : Context) {exps : List Expression} (units : List (SearchUnit exps.length)) :
    Placement :=
  units.foldl ctx.placeUnit ⟨[], [], 0, 0, 0, true⟩

/-- The order of the units of a list. -/
def arrangeUnits (ctx : Context) (exps : List Expression)
    (units : List (SearchUnit exps.length)) : Arrangement :=
  let placement := ctx.placeUnits units
  let arranged := placement.order.filterMap fun i => exps[i]?
  { order := placement.order
    score := ctx.score arranged
    roots := placement.roots
    mode := if placement.greedyComponents > 0 then .greedy else .exhaustive
    stats := ⟨units.length, placement.scored, placement.deadEnds, placement.greedyComponents⟩
    scoresFit := placement.fits && Score.sumsFit (ctx.gains arranged) }

/-- Choose the order of a list of expressions. -/
def arrange (ctx : Context) (exps : List Expression) : Except PlanError Arrangement :=
  match ctx.check exps with
  | .error error => .error error
  | .ok () =>
    if exps.length ≤ 1 then .ok (ctx.arrangeTrivially exps)
    else
      let plan := ctx.units exps
      if plan.unanchored > 1 ∧ ctx.options.splitComponents = false then
        .error (.disconnectedPattern plan.unanchored)
      else .ok (ctx.arrangeUnits exps plan.units)

/-- The expressions in the order chosen for them. -/
def order (ctx : Context) (exps : List Expression) : Except PlanError (List Expression) :=
  match ctx.arrange exps with
  | .error error => .error error
  | .ok a => a.intoOrdered exps

end Context

end PatternTraversal
