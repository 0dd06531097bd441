import PatternTraversal.Plan.Basic
import PatternTraversal.Proofs.Arrangement.Roots
import PatternTraversal.Proofs.StoredGraph.Satisfaction

/-!
# Meaning of a plan

The steps of a plan are the expressions of the list it was built from, in another order and some of
them transposed. What holds of an expression exactly when it holds of its transpose therefore holds
of all steps exactly when it holds of the whole list: a plan asks of the graph what the list asks.
-/

namespace PatternTraversal

namespace Plan

/-- Steps and ordered expressions hold together what transposing keeps. -/
theorem forall_stepsFrom_iff {P : Expression → Prop} (hP : ∀ e, P e.transpose ↔ P e)
    (roots : List ℕ) (filtered : AliasSet) (position : ℕ) (resolved : AliasSet)
    (ordered : List (Expression × ℕ)) :
    (∀ step ∈ stepsFrom roots filtered position resolved ordered, P step.expression) ↔
      ∀ entry ∈ ordered, P entry.1 := by
  induction ordered generalizing position resolved with
  | nil => simp [stepsFrom]
  | cons entry rest ih =>
    have horient (transposed : Bool) : P (orient transposed entry.1) ↔ P entry.1 := by
      cases transposed with
      | false => exact Iff.rfl
      | true => exact hP entry.1
    rw [stepsFrom, List.forall_mem_cons, List.forall_mem_cons, ih, horient]

variable {exps : List Expression} {a : Arrangement} {filter : Option Condition} {bound : AliasSet}
  {plan : Plan}

/-- The steps of a plan come from the expressions in the order of the arrangement. -/
theorem steps_of_build (h : build exps a filter bound = .ok plan) :
    exps.length = a.order.length ∧
      plan.steps = stepsFrom a.roots (Condition.aliasesOf filter) 0 bound
        ((Expression.inOrder exps a.order).zip a.order) := by
  unfold build Arrangement.apply at h
  cases hlength : a.checkLength exps with
  | error error => simp [hlength] at h
  | ok =>
    simp only [hlength] at h
    obtain rfl := Except.ok.inj h
    exact ⟨(a.checkLength_eq_ok_iff exps).1 hlength, rfl⟩

/-- The steps of a plan hold together what transposing keeps exactly when the expressions do. -/
theorem forall_steps_iff {P : Expression → Prop} (hP : ∀ e, P e.transpose ↔ P e)
    (hperm : a.order.Perm (List.range exps.length)) (h : build exps a filter bound = .ok plan) :
    (∀ step ∈ plan.steps, P step.expression) ↔ ∀ e ∈ exps, P e := by
  have hordered := Expression.inOrder_perm hperm
  obtain ⟨hlength, hsteps⟩ := steps_of_build h
  have hzip : (((Expression.inOrder exps a.order).zip a.order).map Prod.fst) =
      Expression.inOrder exps a.order :=
    List.map_fst_zip (hordered.length_eq.trans hlength).le
  calc (∀ step ∈ plan.steps, P step.expression)
      ↔ ∀ entry ∈ (Expression.inOrder exps a.order).zip a.order, P entry.1 := by
        rw [hsteps]
        exact forall_stepsFrom_iff hP _ _ _ _ _
    _ ↔ ∀ e ∈ ((Expression.inOrder exps a.order).zip a.order).map Prod.fst, P e := by
        rw [List.forall_mem_map]
    _ ↔ ∀ e ∈ exps, P e := by
        rw [hzip]
        exact forall_congr' fun e => imp_congr_left hordered.mem_iff

/-- A plan means what the list it was built from means: over every graph that updates lead to, its
steps evaluate exactly when the expressions do, and the same assignments of nodes to aliases satisfy
them. -/
theorem satisfies_steps_iff {ctx : Context} (harrange : ctx.arrange exps = .ok a)
    (hbuild : build exps a filter bound = .ok plan) (dim : UInt64)
    (updates : List StoredGraph.Update) :
    let graph := StoredGraph.ofUpdates dim updates
    ((∀ step ∈ plan.steps, graph.Evaluates step.expression) ↔ ∀ e ∈ exps, graph.Evaluates e) ∧
      ((∀ e ∈ exps, graph.Evaluates e) → ∀ node : Alias → UInt64,
        (∀ e ∈ exps, graph.Satisfies node e) ↔
          ∀ step ∈ plan.steps, graph.Satisfies node step.expression) := by
  intro graph
  have hgraph : graph.IsSquare := StoredGraph.isSquare_ofUpdates dim updates
  have hperm := Context.arrange_order_perm harrange
  refine ⟨forall_steps_iff hgraph.evaluates_transpose_iff hperm hbuild, fun _ node => ?_⟩
  exact (forall_steps_iff (hgraph.satisfies_transpose_iff node) hperm hbuild).symm

/-- A plan that starts from the constrained end of a relationship and walks it back. -/
theorem satisfies_steps_of_hop :
    let exps : List Expression := [.hop ⟨"a"⟩ ⟨"b"⟩ (some "R") none, .labelScan ⟨"b"⟩ "L"]
    let pattern := (Pattern.ofDeclarations [.node ⟨"a"⟩ [], .node ⟨"b"⟩ []]).toOption.getD .empty
    let filter : Option Condition := some (.compare .eq (.property ⟨"b"⟩ "p") (.literal .null))
    let graph := StoredGraph.ofUpdates 3 [.edge "R" 0 2, .edge "R" 1 2, .label "L" 2]
    let node : Alias → UInt64 := fun ident => if ident = ⟨"a"⟩ then 1 else 2
    ∃ a plan, (Context.ofInputs pattern filter ∅ .default).arrange exps = .ok a ∧
      build exps a filter ∅ = .ok plan ∧ plan.steps.map PlanStep.transposed = [true, false] ∧
      ∀ step ∈ plan.steps, graph.Satisfies node step.expression := by
  intro exps pattern filter graph node
  have harrange : (Context.ofInputs pattern filter ∅ .default).arrange exps =
      .ok ⟨[0, 1], 4, [0], .exhaustive, ⟨1, 2, 0, 0⟩, true⟩ := by decide +kernel
  obtain ⟨plan, hbuild, htransposed⟩ : ∃ plan,
      build exps ⟨[0, 1], 4, [0], .exhaustive, ⟨1, 2, 0, 0⟩, true⟩ filter ∅ = .ok plan ∧
        plan.steps.map PlanStep.transposed = [true, false] := ⟨_, rfl, by decide +kernel⟩
  have hsatisfied : ∀ e ∈ exps, graph.Satisfies node e := by decide +kernel
  obtain ⟨-, hsteps⟩ := satisfies_steps_iff harrange hbuild 3
    [.edge "R" 0 2, .edge "R" 1 2, .label "L" 2]
  exact ⟨_, plan, harrange, hbuild, htransposed,
    (hsteps (fun e he => (hsatisfied e he).evaluates) node).1 hsatisfied⟩

end Plan

end PatternTraversal
