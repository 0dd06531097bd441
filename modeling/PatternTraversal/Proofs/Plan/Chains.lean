import Mathlib.Data.List.Forall2
import PatternTraversal.Plan.Explain
import PatternTraversal.Proofs.Plan.Orientation

/-!
# Chains of an explained plan

The steps of a plan fall into segments, each one from a root up to the next one. The tree of the
plan is grown step by step: a root starts a chain, and every other step goes on top of the last one.
So after each step the chains are the segments seen so far, in the same order, and since a plan
starts with a root, no step is without a chain to go on.
-/

namespace PatternTraversal

namespace Explanation

/-! ## Reading a tree -/

mutual

/-- The operators of a tree with their properties, each one behind those that feed it. -/
def nodes : Explanation → List (String × List (String × String))
  | node op props inputs => nodesOfAll inputs ++ [(op, props)]

/-- The operators of several trees. -/
def nodesOfAll : List Explanation → List (String × List (String × String))
  | [] => []
  | tree :: rest => nodes tree ++ nodesOfAll rest

end

/-- What a node shows of a step: its operator tells label tests, roots and other steps apart, and
its properties hold the expression, the two ends and a mark when the step is transposed. -/
structure Shows (step : PlanStep) (shown : String × List (String × String)) : Prop where
  labelFilter : shown.1 = "LabelFilter" ↔ step.expression.isLabelOnly = true
  scanTraverse : shown.1 = "ScanTraverse" ↔
    step.expression.isLabelOnly = false ∧ step.root = true
  traverse : shown.1 = "Traverse" ↔ step.expression.isLabelOnly = false ∧ step.root = false
  expr : shown.2.lookup "expr" = some step.expression.render
  src : shown.2.lookup "src" = some step.expression.source.name
  dest : shown.2.lookup "dest" = some step.expression.target.name
  transposed : shown.2.lookup "transposed" = if step.transposed then some "true" else none

/-- A nest of nodes with one input each, the innermost one without; from there outwards they show
the steps of a list. -/
inductive IsNest : List PlanStep → Explanation → Prop
  | innermost {step : PlanStep} {op : String} {props : List (String × String)}
    (h : Shows step (op, props)) : IsNest [step] (node op props [])
  | onTop {steps : List PlanStep} {tree : Explanation} (inner : IsNest steps tree)
    {step : PlanStep} {op : String} {props : List (String × String)}
    (h : Shows step (op, props)) : IsNest (steps ++ [step]) (node op props [tree])

/-- The nodes of a nest show its steps. -/
theorem IsNest.forall₂_nodes {steps : List PlanStep} {tree : Explanation} (h : IsNest steps tree) :
    List.Forall₂ Shows steps tree.nodes := by
  induction h with
  | innermost h => exact .cons h .nil
  | @onTop steps tree _ step op props h ih =>
    have hnodes : (node op props [tree]).nodes = tree.nodes ++ [(op, props)] := by
      simp [nodes, nodesOfAll]
    rw [hnodes]
    exact List.rel_append ih (.cons h .nil)

/-- The nodes of several nests show their steps. -/
theorem forall₂_nodesOfAll {segments : List (List PlanStep)} {trees : List Explanation}
    (h : List.Forall₂ IsNest segments trees) :
    List.Forall₂ Shows segments.flatten (nodesOfAll trees) := by
  induction h with
  | nil => exact .nil
  | cons hfirst _ ih => exact List.rel_append hfirst.forall₂_nodes ih

end Explanation

open Explanation (Shows IsNest)

/-- The node of a step shows the step. -/
theorem PlanStep.shows (step : PlanStep) : Shows step (step.op, step.props) := by
  have hop : step.op = if step.expression.isLabelOnly then "LabelFilter"
      else if step.root then "ScanTraverse" else "Traverse" := rfl
  have hprops (key : String) : step.props.lookup key =
      ([("expr", step.expression.render), ("src", step.expression.source.name),
        ("dest", step.expression.target.name)] ++
        if step.transposed then [("transposed", "true")] else []).lookup key := rfl
  constructor
  · rw [hop]
    cases step.expression.isLabelOnly <;> cases step.root <;> simp
  · rw [hop]
    cases step.expression.isLabelOnly <;> cases step.root <;> simp
  · rw [hop]
    cases step.expression.isLabelOnly <;> cases step.root <;> simp
  · exact hprops "expr"
  · exact hprops "src"
  · exact hprops "dest"
  · rw [hprops]
    cases step.transposed <;> rfl

namespace Plan

/-! ## Segments -/

/-- A root and the steps up to the next root. -/
def IsSegment : List PlanStep → Prop
  | [] => False
  | first :: rest => first.root = true ∧ ∀ step ∈ rest, step.root = false

/-- Positions at which segments in a row start, the first one at `position`. -/
def starts (position : ℕ) : List (List PlanStep) → List ℕ
  | [] => []
  | segment :: rest => position :: starts (position + segment.length) rest

/-- A segment is not empty. -/
theorem IsSegment.length_pos {segment : List PlanStep} (h : IsSegment segment) :
    0 < segment.length := by
  cases segment with
  | nil => exact h.elim
  | cons first rest => exact Nat.succ_pos _

/-- Only the first step of a segment is a root. -/
theorem IsSegment.root_getElem_iff {segment : List PlanStep} (h : IsSegment segment) {p : ℕ}
    {step : PlanStep} (hstep : segment[p]? = some step) : step.root = true ↔ p = 0 := by
  cases segment with
  | nil => exact h.elim
  | cons first rest =>
    cases p with
    | zero =>
      obtain rfl : first = step := Option.some.inj hstep
      exact iff_of_true h.1 rfl
    | succ p =>
      have hinner := h.2 step (List.mem_of_getElem? hstep)
      exact iff_of_false (by simp [hinner]) (Nat.succ_ne_zero p)

/-- A step on top of a segment belongs to it unless it is a root. -/
theorem IsSegment.append {segment : List PlanStep} (h : IsSegment segment) {step : PlanStep}
    (hstep : step.root = false) : IsSegment (segment ++ [step]) := by
  cases segment with
  | nil => exact h.elim
  | cons first rest =>
    refine ⟨h.1, fun other hother => ?_⟩
    rcases List.mem_append.1 hother with hother | hother
    · exact h.2 other hother
    · exact List.mem_singleton.1 hother ▸ hstep

section Starts

variable {segments : List (List PlanStep)}

/-- Segments in a row start at the roots. -/
theorem mem_starts_iff (hsegments : ∀ segment ∈ segments, IsSegment segment) (position p : ℕ) :
    p ∈ starts position segments ↔
      ∃ q step, p = position + q ∧ segments.flatten[q]? = some step ∧ step.root = true := by
  induction segments generalizing position with
  | nil => simp [starts]
  | cons segment rest ih =>
    rw [List.forall_mem_cons] at hsegments
    obtain ⟨hsegment, hrest⟩ := hsegments
    rw [starts, List.mem_cons, ih hrest]
    constructor
    · rintro (rfl | ⟨q, step, rfl, hstep, hroot⟩)
      · have hfirst := List.getElem?_eq_getElem hsegment.length_pos
        refine ⟨0, _, rfl, ?_, (hsegment.root_getElem_iff hfirst).2 rfl⟩
        rw [List.flatten_cons, List.getElem?_append_left hsegment.length_pos, hfirst]
      · refine ⟨segment.length + q, step, Nat.add_assoc _ _ _, ?_, hroot⟩
        rw [List.flatten_cons, List.getElem?_append_right (Nat.le_add_right _ _),
          Nat.add_sub_cancel_left, hstep]
    · rintro ⟨q, step, rfl, hstep, hroot⟩
      rw [List.flatten_cons] at hstep
      rcases Nat.lt_or_ge q segment.length with hlt | hge
      · rw [List.getElem?_append_left hlt] at hstep
        exact .inl (by rw [(hsegment.root_getElem_iff hstep).1 hroot, Nat.add_zero])
      · rw [List.getElem?_append_right hge] at hstep
        exact .inr ⟨q - segment.length, step, by omega, hstep, hroot⟩

/-- Segments start one behind the other. -/
theorem pairwise_starts (hsegments : ∀ segment ∈ segments, IsSegment segment) (position : ℕ) :
    (starts position segments).Pairwise (· < ·) := by
  induction segments generalizing position with
  | nil => exact .nil
  | cons segment rest ih =>
    rw [List.forall_mem_cons] at hsegments
    obtain ⟨hsegment, hrest⟩ := hsegments
    refine .cons (fun p hp => ?_) (ih hrest _)
    obtain ⟨q, -, rfl, -, -⟩ := (mem_starts_iff hrest _ p).1 hp
    have := hsegment.length_pos
    omega

/-- As many positions as segments. -/
theorem length_starts (position : ℕ) : (starts position segments).length = segments.length := by
  induction segments generalizing position with
  | nil => rfl
  | cons segment rest ih => rw [starts, List.length_cons, ih, List.length_cons]

end Starts

/-! ## Growing the chains -/

/-- A root starts a chain. -/
theorem addToChains_of_root {step : PlanStep} (h : step.root = true) (chains : List Explanation) :
    addToChains chains step = step.explain [] :: chains := by
  simp [addToChains, h]

/-- Any other step goes on top of the last chain. -/
theorem addToChains_cons {step : PlanStep} (h : step.root = false) (last : Explanation)
    (rest : List Explanation) : addToChains (last :: rest) step = step.explain [last] :: rest := by
  simp [addToChains, h]

/-- The chains after the steps in `seen`: they are nests of the segments seen so far, both with the
newest one first. -/
structure Grown (seen : List PlanStep) (segments : List (List PlanStep))
    (chains : List Explanation) : Prop where
  seen_eq : seen = segments.reverse.flatten
  isSegment : ∀ segment ∈ segments, IsSegment segment
  nests : List.Forall₂ IsNest segments chains

/-- Before the first step there are no chains. -/
theorem grown_nil : Grown [] [] [] := ⟨rfl, by simp, .nil⟩

/-- One more step keeps the chains nests of the segments, when the first one is a root. -/
theorem Grown.addToChains {seen : List PlanStep} {segments : List (List PlanStep)}
    {chains : List Explanation} (h : Grown seen segments chains) {step : PlanStep}
    (hstart : seen = [] → step.root = true) :
    ∃ segments, Grown (seen ++ [step]) segments (addToChains chains step) := by
  obtain ⟨rfl, hsegments, hnests⟩ := h
  cases hroot : step.root with
  | true =>
    rw [addToChains_of_root hroot]
    refine ⟨[step] :: segments, by simp, ?_, .cons (.innermost step.shows) hnests⟩
    rw [List.forall_mem_cons]
    exact ⟨⟨hroot, by simp⟩, hsegments⟩
  | false =>
    cases hnests with
    | nil => simp [hroot] at hstart
    | @cons segment last segments chains hlast hnests =>
      rw [addToChains_cons hroot]
      rw [List.forall_mem_cons] at hsegments
      refine ⟨(segment ++ [step]) :: segments, by simp, ?_,
        .cons (hlast.onTop step.shows) hnests⟩
      rw [List.forall_mem_cons]
      exact ⟨hsegments.1.append hroot, hsegments.2⟩

/-- Several more steps keep the chains nests of the segments. -/
theorem Grown.foldl {seen : List PlanStep} {segments : List (List PlanStep)}
    {chains : List Explanation} (h : Grown seen segments chains) {rest : List PlanStep}
    (hstart : ∀ step ∈ (seen ++ rest).head?, step.root = true) :
    ∃ segments, Grown (seen ++ rest) segments (rest.foldl Plan.addToChains chains) := by
  induction rest generalizing seen segments chains with
  | nil => exact ⟨segments, by rwa [List.append_nil]⟩
  | cons step rest ih =>
    have hroot : seen = [] → step.root = true := fun hnil => hstart step (by simp [hnil])
    obtain ⟨segments, hstep⟩ := h.addToChains hroot
    have happend : seen ++ step :: rest = seen ++ [step] ++ rest := by simp
    rw [happend] at hstart ⊢
    exact ih hstep hstart

/-- The chains of a plan that starts with a root are nests of its segments. -/
theorem exists_segments_chains {plan : Plan}
    (hstart : ∀ step ∈ plan.steps.head?, step.root = true) :
    ∃ segments, plan.steps = segments.flatten ∧ (∀ segment ∈ segments, IsSegment segment) ∧
      List.Forall₂ IsNest segments plan.chains := by
  obtain ⟨segments, hseen, hsegments, hnests⟩ := grown_nil.foldl hstart
  refine ⟨segments.reverse, hseen, fun segment hmem => hsegments segment (List.mem_reverse.1 hmem),
    ?_⟩
  exact List.forall₂_reverse_iff.2 hnests

/-! ## Plans of arrangements -/

section Build

variable {ctx : Context} {exps others : List Expression} {a : Arrangement}
  {filter : Option Condition} {bound : AliasSet} {plan : Plan}

/-- A plan has a step for each position of the arrangement. -/
theorem length_steps_of_build (h : ctx.arrange exps = .ok a)
    (hbuild : build others a filter bound = .ok plan) : plan.steps.length = exps.length := by
  obtain ⟨hlength, hsteps⟩ := steps_of_build hbuild
  have hperm := Context.arrange_order_perm h
  have horder : a.order.length = exps.length := by simpa using hperm.length_eq
  have hordered := Expression.inOrder_perm
    (show a.order.Perm (List.range others.length) by rwa [hlength, horder])
  rw [hsteps, length_stepsFrom, List.length_zip, hordered.length_eq, hlength, horder, min_self]

/-- A step is a root when its position is one of the arrangement. -/
theorem root_iff_of_build (hbuild : build others a filter bound = .ok plan) {p : ℕ}
    {step : PlanStep} (hstep : plan.steps[p]? = some step) : step.root = true ↔ p ∈ a.roots := by
  rw [(steps_of_build hbuild).2, getElem?_stepsFrom, Option.map_eq_some_iff] at hstep
  obtain ⟨entry, -, rfl⟩ := hstep
  simp

/-- A plan starts with a root. -/
theorem root_of_head? (h : ctx.arrange exps = .ok a)
    (hbuild : build others a filter bound = .ok plan) :
    ∀ step ∈ plan.steps.head?, step.root = true := by
  intro step hstep
  rw [List.head?_eq_getElem?] at hstep
  have hpos := (List.getElem?_eq_some_iff.1 hstep).1
  rw [length_steps_of_build h hbuild] at hpos
  exact (root_iff_of_build hbuild hstep).2 (Context.zero_mem_roots h hpos)

/-- The segments of a plan start at the roots of the arrangement. -/
theorem roots_eq_starts (h : ctx.arrange exps = .ok a)
    (hbuild : build others a filter bound = .ok plan) {segments : List (List PlanStep)}
    (hsteps : plan.steps = segments.flatten) (hsegments : ∀ segment ∈ segments, IsSegment segment) :
    a.roots = starts 0 segments := by
  obtain ⟨hascending, hbounded, -⟩ := Context.ascending_roots h
  refine hascending.eq_of_mem_iff (pairwise_starts hsegments 0) fun p => ?_
  rw [mem_starts_iff hsegments, ← hsteps]
  simp only [Nat.zero_add]
  constructor
  · intro hp
    have hlt : p < plan.steps.length := length_steps_of_build h hbuild ▸ hbounded p hp
    have hstep := List.getElem?_eq_getElem hlt
    exact ⟨p, _, rfl, hstep, (root_iff_of_build hbuild hstep).2 hp⟩
  · rintro ⟨_, step, rfl, hstep, hroot⟩
    exact (root_iff_of_build hbuild hstep).1 hroot

/-- The top of the tree: nothing beneath it for no chain, the chain itself for a single one, and a
product for several. -/
theorem explain_eq (plan : Plan) : ∃ inputs,
    plan.explain = .node "TraversalPlan" plan.props inputs ∧
    (plan.chains.length ≤ 1 → inputs = plan.chains) ∧
    (1 < plan.chains.length → inputs = [.node "CartesianProduct" [] plan.chains]) := by
  unfold explain
  match plan.chains with
  | [] => exact ⟨_, rfl, fun _ => rfl, fun h => absurd h (by simp)⟩
  | [chain] => exact ⟨_, rfl, fun _ => rfl, fun h => absurd h (by simp)⟩
  | first :: second :: rest => exact ⟨_, rfl, fun h => absurd h (by simp), fun _ => rfl⟩

/-- The tree of a plan has the nodes of its chains, and behind them those of the top. -/
theorem nodes_explain (plan : Plan) : ∃ top,
    plan.explain.nodes = Explanation.nodesOfAll plan.chains ++ top ∧
      ∀ node ∈ top, node.1 = "CartesianProduct" ∨ node.1 = "TraversalPlan" := by
  obtain ⟨inputs, htree, hfew, hmany⟩ := explain_eq plan
  let root := ("TraversalPlan", plan.props)
  rcases Nat.lt_or_ge 1 plan.chains.length with hlength | hlength
  · refine ⟨[("CartesianProduct", []), root], ?_, by simp [root]⟩
    rw [htree, hmany hlength]
    simp [Explanation.nodes, Explanation.nodesOfAll, root]
  · refine ⟨[root], ?_, by simp [root]⟩
    rw [htree, hfew hlength, Explanation.nodes]

/-- The steps of a plan that is built from an arrangement fall into segments, which start at the
roots of the arrangement. Each segment has a chain: a nest of nodes with one input each that show,
from the innermost one outwards, the steps of the segment. The tree has nothing beneath its top for
an empty plan, the chain if there is one root, and otherwise the product of the chains in the order
of the roots. So besides the nodes of the top there is one node for each step. -/
theorem explain_nests_segments (h : ctx.arrange exps = .ok a)
    (hbuild : build others a filter bound = .ok plan) :
    ∃ (segments : List (List PlanStep)) (chains inputs : List Explanation),
      (plan.steps = segments.flatten ∧ (∀ segment ∈ segments, IsSegment segment) ∧
        a.roots = starts 0 segments) ∧
      List.Forall₂ IsNest segments chains ∧
      plan.explain = .node "TraversalPlan" plan.props inputs ∧
      (plan.steps = [] → inputs = []) ∧
      (∀ root, a.roots = [root] → ∃ chain, chains = [chain] ∧ inputs = [chain]) ∧
      (1 < a.roots.length → inputs = [.node "CartesianProduct" [] chains]) ∧
      ∃ shown top, plan.explain.nodes = shown ++ top ∧ List.Forall₂ Shows plan.steps shown ∧
        ∀ node ∈ top, node.1 = "CartesianProduct" ∨ node.1 = "TraversalPlan" := by
  obtain ⟨segments, hsteps, hsegments, hnests⟩ :=
    exists_segments_chains (root_of_head? h hbuild)
  obtain ⟨inputs, htree, hfew, hmany⟩ := explain_eq plan
  obtain ⟨top, hnodes, htop⟩ := nodes_explain plan
  have hroots := roots_eq_starts h hbuild hsteps hsegments
  have hcount : plan.chains.length = a.roots.length := by
    rw [hroots, length_starts, hnests.length_eq]
  refine ⟨segments, plan.chains, inputs, ⟨hsteps, hsegments, hroots⟩, hnests, htree, ?_, ?_, ?_,
    _, top, hnodes, hsteps ▸ Explanation.forall₂_nodesOfAll hnests, htop⟩
  · intro hempty
    have hchains : plan.chains = [] := by rw [chains, hempty, List.foldl_nil, List.reverse_nil]
    rw [hfew (by simp [hchains]), hchains]
  · intro root hroot
    have hone : plan.chains.length = 1 := by rw [hcount, hroot, List.length_singleton]
    obtain ⟨chain, hchain⟩ := List.length_eq_one_iff.1 hone
    exact ⟨chain, hchain, by rw [hfew hone.le, hchain]⟩
  · exact fun hlarge => hmany (hcount ▸ hlarge)

/-- Two steps of one piece and a piece of its own behind them, which comes between them in the
input: two chains beneath a product. -/
theorem explain_nests_segments_two_pieces :
    let exps : List Expression := [.hop ⟨"a"⟩ ⟨"b"⟩ (some "R") none, .labelScan ⟨"x"⟩ "L",
      .hop ⟨"c"⟩ ⟨"b"⟩ none none]
    let pattern := (Pattern.ofDeclarations [.node ⟨"a"⟩ [], .node ⟨"b"⟩ [], .node ⟨"c"⟩ [],
      .node ⟨"x"⟩ []]).toOption.getD .empty
    ∃ a plan, (Context.ofInputs pattern none ∅ .default).arrange exps = .ok a ∧
      build exps a none ∅ = .ok plan ∧ a.roots = [0, 2] ∧
      ∃ one two three chain other, plan.steps = [one, two, three] ∧
        IsNest [one, two] chain ∧ IsNest [three] other ∧
        plan.explain = .node "TraversalPlan" plan.props
          [.node "CartesianProduct" [] [chain, other]] := by
  intro exps pattern
  have harrange : (Context.ofInputs pattern none ∅ .default).arrange exps =
      .ok ⟨[0, 2, 1], 1, [0, 2], .exhaustive, ⟨2, 3, 0, 0⟩, true⟩ := by decide +kernel
  obtain ⟨plan, hbuild⟩ : ∃ plan, build exps ⟨[0, 2, 1], 1, [0, 2], .exhaustive, ⟨2, 3, 0, 0⟩, true⟩
      none ∅ = .ok plan := ⟨_, rfl⟩
  obtain ⟨segments, chains, inputs, ⟨hsteps, -, hroots⟩, hnests, htree, -, -, hproduct, -⟩ :=
    explain_nests_segments harrange hbuild
  obtain ⟨one, two, three, hthree⟩ := List.length_eq_three.1 (length_steps_of_build harrange hbuild)
  refine ⟨_, plan, harrange, hbuild, rfl, one, two, three, ?_⟩
  -- two roots, the second one at position 2: a segment of two steps and one of a single step
  match segments, hroots with
  | _ :: _ :: _ :: _, hroots => simp [starts] at hroots
  | [first, second], hroots =>
    have hfirst : first.length = 2 := by simpa [starts] using hroots.symm
    have happend : [one, two] ++ [three] = first ++ second := by
      rw [List.cons_append, List.singleton_append, ← hthree, hsteps]
      simp
    obtain ⟨rfl, rfl⟩ := List.append_inj happend hfirst.symm
    simp only [List.forall₂_cons_left_iff, List.forall₂_nil_left_iff] at hnests
    obtain ⟨chain, _, hchain, ⟨other, _, hother, rfl, rfl⟩, rfl⟩ := hnests
    exact ⟨chain, other, hthree, hchain, hother, by rw [htree, hproduct (by decide)]⟩

end Build

end Plan

end PatternTraversal
