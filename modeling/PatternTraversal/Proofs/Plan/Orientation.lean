import PatternTraversal.Proofs.Plan.Meaning

/-!
# Orientation of a plan

The steps of a plan keep a set of resolved aliases of their own, while the order was chosen by what
may follow what. Both agree: an expression that may follow those before it touches an alias that is
resolved by then, so its step starts from one, and a later root touches none.
-/

namespace PatternTraversal

namespace Plan

/-- Aliases resolved once the endpoints of some expressions are. -/
def resolvedAfter (resolved : AliasSet) (ordered : List (Expression × ℕ)) : AliasSet :=
  ordered.foldl (fun resolved entry => (resolved.insert entry.1.source).insert entry.1.target)
    resolved

/-- An alias is resolved after some expressions when it was before or one of them references it. -/
theorem mem_resolvedAfter_iff (resolved : AliasSet) (ordered : List (Expression × ℕ))
    (ident : Alias) :
    ident ∈ resolvedAfter resolved ordered ↔
      ident ∈ resolved ∨ ∃ entry ∈ ordered, entry.1.references ident = true := by
  induction ordered generalizing resolved with
  | nil => simp [resolvedAfter]
  | cons entry rest ih =>
    rw [resolvedAfter, List.foldl_cons, ← resolvedAfter, ih]
    simp [Expression.references, or_assoc, or_left_comm]

/-- Each step is made from its expression and what is resolved before it. -/
theorem getElem?_stepsFrom (roots : List ℕ) (filtered : AliasSet) (position : ℕ)
    (resolved : AliasSet) (ordered : List (Expression × ℕ)) (p : ℕ) :
    (stepsFrom roots filtered position resolved ordered)[p]? = ordered[p]?.map fun entry =>
      let transposed :=
        startsFromTarget filtered (resolvedAfter resolved (ordered.take p)) entry.1
      ⟨orient transposed entry.1, entry.2, transposed, roots.contains (position + p)⟩ := by
  induction ordered generalizing position resolved p with
  | nil => simp [stepsFrom]
  | cons entry rest ih =>
    cases p with
    | zero => simp [stepsFrom, resolvedAfter]
    | succ p =>
      rw [stepsFrom, List.getElem?_cons_succ, ih, List.getElem?_cons_succ, List.take_succ_cons,
        Nat.add_right_comm, Nat.add_assoc]
      rfl

/-- There is a step for each expression. -/
theorem length_stepsFrom (roots : List ℕ) (filtered : AliasSet) (position : ℕ)
    (resolved : AliasSet) (ordered : List (Expression × ℕ)) :
    (stepsFrom roots filtered position resolved ordered).length = ordered.length := by
  induction ordered generalizing position resolved with
  | nil => rfl
  | cons entry rest ih => rw [stepsFrom, List.length_cons, ih, List.length_cons]

/-- The first steps are those of the first expressions. -/
theorem take_stepsFrom (roots : List ℕ) (filtered : AliasSet) (position : ℕ) (resolved : AliasSet)
    (ordered : List (Expression × ℕ)) (p : ℕ) :
    (stepsFrom roots filtered position resolved ordered).take p =
      stepsFrom roots filtered position resolved (ordered.take p) := by
  induction ordered generalizing position resolved p with
  | nil => simp [stepsFrom]
  | cons entry rest ih =>
    cases p with
    | zero => rfl
    | succ p => simp only [stepsFrom, List.take_succ_cons, ih]

/-- Transposing keeps the endpoints. -/
theorem references_transpose (e : Expression) (ident : Alias) :
    e.transpose.references ident = e.references ident :=
  Bool.or_comm _ _

/-- Orienting keeps the endpoints. -/
theorem references_orient (transposed : Bool) (e : Expression) (ident : Alias) :
    (orient transposed e).references ident = e.references ident := by
  cases transposed with
  | false => rfl
  | true => exact references_transpose e ident

/-- The steps reference what their expressions do. -/
theorem exists_step_references_iff (roots : List ℕ) (filtered : AliasSet) (position : ℕ)
    (resolved : AliasSet) (ordered : List (Expression × ℕ)) (ident : Alias) :
    (∃ step ∈ stepsFrom roots filtered position resolved ordered,
        step.expression.references ident = true) ↔
      ∃ entry ∈ ordered, entry.1.references ident = true := by
  have h := forall_stepsFrom_iff (P := fun e => ¬ e.references ident = true)
    (fun e => by rw [references_transpose]) roots filtered position resolved ordered
  simpa using not_congr h

/-- Whether an alias is resolved before a position of a plan: it is bound, or an endpoint of an
earlier step. -/
def ResolvedBefore (bound : AliasSet) (plan : Plan) (position : ℕ) (ident : Alias) : Prop :=
  ident ∈ bound ∨ ∃ step ∈ plan.steps.take position, step.expression.references ident = true

/-- A step as the rules of orientation have it: `resolved` tells the aliases that are resolved
before it, and `e` is its expression in the input. -/
structure IsOriented (filtered : AliasSet) (resolved : Alias → Prop) (e : Expression)
    (step : PlanStep) : Prop where
  /-- The step evaluates its expression or, when it is marked so, the transpose. -/
  expression_eq : step.expression = if step.transposed then e.transpose else e
  /-- An expression whose source is resolved is not transposed. -/
  source_unresolved : step.transposed = true → ¬resolved e.source
  /-- With a resolved endpoint a step starts from one. -/
  resolved_source : resolved step.expression.source ∨ resolved step.expression.target →
    resolved step.expression.source
  /-- Without one it starts from a constrained endpoint, if there is one. -/
  filtered_source : ¬resolved step.expression.source → ¬resolved step.expression.target →
    step.expression.source ∈ filtered ∨ step.expression.target ∈ filtered →
      step.expression.source ∈ filtered

/-- The choice of the end to start from follows the rules. -/
theorem isOriented_startsFromTarget {filtered known : AliasSet} {resolved : Alias → Prop}
    (hknown : ∀ ident, resolved ident ↔ ident ∈ known) (e : Expression) {step : PlanStep}
    (htransposed : step.transposed = startsFromTarget filtered known e)
    (hexpression : step.expression = orient step.transposed e) :
    IsOriented filtered resolved e step := by
  have hchoice : (step.transposed = true ↔ e.source ∉ known ∧
      (e.target ∈ known ∨ e.target ∈ filtered ∧ e.source ∉ filtered)) := by
    rw [htransposed, startsFromTarget]
    grind [Std.ExtTreeSet.contains_iff_mem]
  cases hturned : step.transposed with
  | false =>
    have hsame : step.expression = e := by rw [hexpression, hturned, orient, if_neg (by simp)]
    rw [hturned] at hchoice
    constructor
    · simp [hsame, hturned]
    · simp [hturned]
    · simp only [hsame, hknown]
      grind
    · simp only [hsame, hknown]
      grind
  | true =>
    have hback : step.expression = e.transpose := by rw [hexpression, hturned, orient, if_pos rfl]
    have hsource : step.expression.source = e.target := by rw [hback]; rfl
    have htarget : step.expression.target = e.source := by rw [hback]; rfl
    rw [hturned] at hchoice
    constructor
    · simp [hback, hturned]
    · simp only [hknown]
      grind
    · simp only [hsource, htarget, hknown]
      grind
    · simp only [hsource, htarget, hknown]
      grind

variable {exps : List Expression} {a : Arrangement} {filter : Option Condition} {bound : AliasSet}

/-- An order of all places builds a plan, whose steps are made from the expressions at them. -/
theorem exists_build (filter : Option Condition) (bound : AliasSet)
    {places : List (Fin exps.length)} (horder : a.order = places.map Fin.val)
    (hlength : places.length = exps.length) :
    ∃ plan, build exps a filter bound = .ok plan ∧
      plan.steps = stepsFrom a.roots (Condition.aliasesOf filter) 0 bound
        (places.map fun i => (exps.get i, i.val)) := by
  have hcheck : a.checkLength exps = .ok () := by
    rw [Arrangement.checkLength_eq_ok_iff, Arrangement.length, horder, List.length_map, hlength]
  have hzip : (Expression.inOrder exps a.order).zip a.order =
      places.map fun i => (exps.get i, i.val) := by
    rw [horder, Expression.inOrder_map_val, List.zip_map']
  unfold build Arrangement.apply
  rw [hcheck]
  refine ⟨_, rfl, ?_⟩
  rw [← hzip]
  rfl

/-- Resolved before a step of a plan is what is bound or an endpoint of an earlier expression. -/
theorem resolvedBefore_iff {plan : Plan} {roots : List ℕ} {filtered : AliasSet}
    {places : List (Fin exps.length)}
    (hsteps : plan.steps =
      stepsFrom roots filtered 0 bound (places.map fun i => (exps.get i, i.val)))
    (p : ℕ) (ident : Alias) :
    ResolvedBefore bound plan p ident ↔
      ident ∈ bound ∨ ∃ i ∈ places.take p, (exps.get i).references ident = true := by
  rw [ResolvedBefore, hsteps, take_stepsFrom, exists_step_references_iff, ← List.map_take]
  simp only [List.mem_map, exists_exists_and_eq_and]

/-- A step of a plan stands for the expression at its place, oriented by the rules. -/
theorem exists_place_of_step {plan : Plan} {roots : List ℕ} {filtered : AliasSet}
    {places : List (Fin exps.length)}
    (hsteps : plan.steps =
      stepsFrom roots filtered 0 bound (places.map fun i => (exps.get i, i.val)))
    {p : ℕ} {step : PlanStep} (hstep : plan.steps[p]? = some step) :
    ∃ hp : p < places.length, step.index = places[p].val ∧ (step.root = true ↔ p ∈ roots) ∧
      (∀ ident, step.expression.references ident = (exps.get places[p]).references ident) ∧
      IsOriented filtered (ResolvedBefore bound plan p) (exps.get places[p]) step := by
  have hknown (ident : Alias) : ResolvedBefore bound plan p ident ↔ ident ∈ resolvedAfter bound
      ((places.map fun i => (exps.get i, i.val)).take p) := by
    rw [resolvedBefore_iff hsteps, mem_resolvedAfter_iff, ← List.map_take]
    simp only [List.mem_map, exists_exists_and_eq_and]
  rw [hsteps, getElem?_stepsFrom, List.getElem?_map, Option.map_map, Option.map_eq_some_iff]
    at hstep
  obtain ⟨i, hi, rfl⟩ := hstep
  obtain ⟨hp, rfl⟩ := List.getElem?_eq_some_iff.1 hi
  refine ⟨hp, rfl, ?_, references_orient _ _, isOriented_startsFromTarget hknown _ rfl rfl⟩
  simp

end Plan

namespace Context

/-- An expression may follow others when one of its endpoints is bound or one of theirs. -/
theorem validNext_iff_resolved {ctx : Context} {placed : List Expression} (hne : placed ≠ [])
    (e : Expression) :
    ctx.validNext placed e = true ↔ ∃ ident, e.references ident = true ∧
      (ident ∈ ctx.bound ∨ ∃ earlier ∈ placed, earlier.references ident = true) := by
  simp [validNext, hne, connects, isBound, Expression.mem_entities_iff]

end Context

namespace Plan

variable {exps : List Expression} {a : Arrangement} {filter : Option Condition} {bound : AliasSet}

/-- A later step is a root when none of its endpoints is resolved before it. -/
theorem mem_roots_iff_unresolved {pattern : Pattern} {options : Options}
    (h : (Context.ofInputs pattern filter bound options).arrange exps = .ok a)
    {places : List (Fin exps.length)} (horder : a.order = places.map Fin.val) {p : ℕ}
    (hpos : 0 < p) (hp : p < places.length) :
    p ∈ a.roots ↔ ∀ ident, (exps.get places[p]).references ident = true →
      ¬(ident ∈ bound ∨ ∃ i ∈ places.take p, (exps.get i).references ident = true) := by
  have hi : a.order[p]? = some places[p].val := by simp [horder, hp]
  have hne : (places.take p).map exps.get ≠ [] := by
    have : places ≠ [] := List.ne_nil_of_length_pos (by omega)
    simp [this, hpos.ne']
  rw [Context.mem_roots_iff_of_pos h hpos hi (List.getElem?_eq_getElem places[p].isLt), horder,
    ← List.map_take, Expression.inOrder_map_val, ← Bool.not_eq_true, ← List.get_eq_getElem,
    Context.validNext_iff_resolved hne]
  simp only [List.mem_map, exists_exists_and_eq_and, not_exists, not_and]
  rfl

/-- A plan extends from what is resolved. Every arrangement builds a plan under the same predicate
and bound aliases, with one step for each expression in the order of the arrangement and with its
roots. Each step is its expression or the transpose, oriented by the rules; it starts from a
resolved alias unless it is a root, and a root behind other steps touches no resolved alias. -/
theorem build_extends_resolved {pattern : Pattern} {options : Options}
    (h : (Context.ofInputs pattern filter bound options).arrange exps = .ok a) :
    ∃ plan, build exps a filter bound = .ok plan ∧ plan.steps.length = exps.length ∧
      ∀ p step, plan.steps[p]? = some step →
        a.order[p]? = some step.index ∧ (step.root = true ↔ p ∈ a.roots) ∧
          (∃ e, exps[step.index]? = some e ∧
            IsOriented (Condition.aliasesOf filter) (ResolvedBefore bound plan p) e step) ∧
          (step.root = false → ResolvedBefore bound plan p step.expression.source) ∧
          (step.root = true → 0 < p →
            ¬ResolvedBefore bound plan p step.expression.source ∧
              ¬ResolvedBefore bound plan p step.expression.target) := by
  obtain ⟨places, horder, hperm⟩ := Expression.exists_places (Context.arrange_order_perm h)
  have hlength : places.length = exps.length := by simpa using hperm.length_eq
  obtain ⟨plan, hbuild, hsteps⟩ := exists_build filter bound horder hlength
  refine ⟨plan, hbuild, by rw [hsteps, length_stepsFrom, List.length_map, hlength], ?_⟩
  intro p step hstep
  obtain ⟨hp, hindex, hroot, hreferences, horiented⟩ := exists_place_of_step hsteps hstep
  have hends : (ResolvedBefore bound plan p step.expression.source ∨
        ResolvedBefore bound plan p step.expression.target) ↔
      ∃ ident, (exps.get places[p]).references ident = true ∧
        ResolvedBefore bound plan p ident := by
    simp only [← hreferences]
    simp [Expression.references, or_and_right, exists_or]
  have hroots (hpos : 0 < p) : p ∈ a.roots ↔
      ¬(ResolvedBefore bound plan p step.expression.source ∨
        ResolvedBefore bound plan p step.expression.target) := by
    rw [hends, mem_roots_iff_unresolved h horder hpos hp]
    simp only [resolvedBefore_iff hsteps, not_exists, not_and]
  refine ⟨?_, hroot, ⟨_, ?_, horiented⟩, fun hinner => ?_, fun houter hpos => ?_⟩
  · simp [horder, hindex, hp]
  · rw [hindex]
    exact List.getElem?_eq_getElem places[p].isLt
  · have hnot : p ∉ a.roots := by rw [← hroot, hinner]; exact Bool.false_ne_true
    have hpos : 0 < p := by
      by_contra hzero
      obtain rfl : p = 0 := by omega
      exact hnot (Context.zero_mem_roots h (by omega))
    exact horiented.resolved_source (not_not.1 (mt (hroots hpos).2 hnot))
  · exact not_or.1 ((hroots hpos).1 (hroot.1 houter))

/-- A chain with a constrained end, and a piece of its own: both relationships of the chain are
walked back from that end, and the piece starts from nothing known. -/
theorem build_extends_resolved_two_pieces :
    let exps : List Expression := [.hop ⟨"a"⟩ ⟨"b"⟩ (some "R") none,
      .hop ⟨"b"⟩ ⟨"c"⟩ none none, .labelScan ⟨"d"⟩ "L"]
    let pattern := (Pattern.ofDeclarations [.node ⟨"a"⟩ [], .node ⟨"b"⟩ [], .node ⟨"c"⟩ [],
      .node ⟨"d"⟩ []]).toOption.getD .empty
    let filter : Option Condition := some (.compare .eq (.property ⟨"c"⟩ "p") (.literal .null))
    ∃ a plan, (Context.ofInputs pattern filter ∅ .default).arrange exps = .ok a ∧
      build exps a filter ∅ = .ok plan ∧
      plan.steps.map (fun step => (step.index, step.transposed, step.root)) =
        [(1, true, true), (0, true, false), (2, false, true)] ∧
      (∀ step, plan.steps[1]? = some step → ResolvedBefore ∅ plan 1 step.expression.source) ∧
      ∀ step, plan.steps[2]? = some step → ¬ResolvedBefore ∅ plan 2 step.expression.source := by
  intro exps pattern filter
  have harrange : (Context.ofInputs pattern filter ∅ .default).arrange exps =
      .ok ⟨[1, 0, 2], 4, [0, 2], .exhaustive, ⟨2, 3, 0, 0⟩, true⟩ := by decide +kernel
  obtain ⟨plan, hbuild, -, hsteps⟩ := build_extends_resolved harrange
  have hmarks : plan.steps.map (fun step => (step.index, step.transposed, step.root)) =
      [(1, true, true), (0, true, false), (2, false, true)] := by
    rw [(steps_of_build hbuild).2]
    decide +kernel
  have hmark (p : ℕ) : plan.steps[p]?.map (fun step => (step.index, step.transposed, step.root)) =
      [(1, true, true), (0, true, false), (2, false, true)][p]? := by
    rw [← hmarks, List.getElem?_map]
  refine ⟨_, plan, harrange, hbuild, hmarks, fun step hstep => ?_, fun step hstep => ?_⟩
  · obtain ⟨-, -, -, hinner, -⟩ := hsteps 1 step hstep
    have hroot := hmark 1
    rw [hstep] at hroot
    exact hinner (congrArg (fun mark => mark.2.2) (Option.some.inj hroot))
  · obtain ⟨-, -, -, -, houter⟩ := hsteps 2 step hstep
    have hroot := hmark 2
    rw [hstep] at hroot
    exact (houter (congrArg (fun mark => mark.2.2) (Option.some.inj hroot)) (by decide)).1

end Plan

end PatternTraversal
