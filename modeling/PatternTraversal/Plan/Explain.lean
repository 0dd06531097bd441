import PatternTraversal.Explanation
import PatternTraversal.Plan.Basic

/-!
# Explaining plans

Each piece of a plan is a chain of operators, the last step on top. Several pieces are joined by a
Cartesian product.
-/

namespace PatternTraversal

namespace PlanStep

/-- Operator of a step. -/
def op (step : PlanStep) : String :=
  if step.expression.isLabelOnly then "LabelFilter"
  else if step.root then "ScanTraverse" else "Traverse"

/-- Properties of a step. -/
def props (step : PlanStep) : List (String × String) :=
  [("expr", step.expression.render), ("src", step.expression.source.name),
    ("dest", step.expression.target.name)] ++
    if step.transposed then [("transposed", "true")] else []

/-- The operator of a step over its inputs. -/
def explain (step : PlanStep) (inputs : List Explanation) : Explanation :=
  .node step.op step.props inputs

end PlanStep

namespace Plan

/-- Add a step to the chains so far, newest first: on top of the last one, or as a new one. -/
def addToChains (chains : List Explanation) (step : PlanStep) : List Explanation :=
  match step.root, chains with
  | false, last :: rest => step.explain [last] :: rest
  | _, chains => step.explain [] :: chains

/-- One chain for each piece. -/
def chains (plan : Plan) : List Explanation := (plan.steps.foldl addToChains []).reverse

/-- Properties of a plan. -/
def props (plan : Plan) : List (String × String) :=
  [("score", Int.repr plan.score), ("plan_hash", Xxh64.render plan.hash)]

/-- The tree of a plan. -/
def explain (plan : Plan) : Explanation :=
  .node "TraversalPlan" plan.props
    (match plan.chains with
    | first :: second :: rest => [.node "CartesianProduct" [] (first :: second :: rest)]
    | chains => chains)

end Plan

end PatternTraversal
