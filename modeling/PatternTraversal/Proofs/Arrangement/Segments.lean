import Mathlib.Algebra.BigOperators.Group.List.Basic
import Mathlib.Data.List.Forall2
import Mathlib.Tactic.Ring
import PatternTraversal.Proofs.Arrangement.Optimality

/-!
# Ordering units separately

The search of a unit counts its weights from the number of members of that unit, while the score of
a whole order counts them from the number of all expressions. In the whole order every weight inside
a segment is larger by the number of expressions behind the segment, and every order of the unit
gains the same by that. So segments that are best for their units make up the best whole order.
-/

namespace PatternTraversal

namespace Score

/-- The sum of two lists in a row. -/
theorem total_append (one two : List ℤ) : total (one ++ two) = total one + total two := by
  induction one with
  | nil => simp [total]
  | cons term rest ih => rw [List.cons_append, total, total, ih, Int.add_assoc]

end Score

namespace Context

variable {ctx : Context}

/-- Interest of an expression as a sum over its entities. -/
theorem interest_eq_sum (ctx : Context) (e : Expression) :
    ctx.interest e = (e.entities.map ctx.aliasInterest).sum := by
  rw [interest, List.sum_eq_foldr, List.foldr_map]

/-- The score of an order from its first expression on. -/
theorem score_cons (e : Expression) (rest : List Expression) :
    ctx.score (e :: rest) = ctx.gain (rest.length + 1 : ℕ) e + ctx.score rest := rfl

/-- Interest of all expressions of a sequence. -/
def totalInterest (ctx : Context) (sequence : List Expression) : ℕ :=
  (sequence.map ctx.interest).sum

/-- The interest of a sequence does not depend on its order. -/
theorem totalInterest_perm {one two : List Expression} (h : one.Perm two) :
    ctx.totalInterest one = ctx.totalInterest two :=
  (h.map ctx.interest).sum_eq

/-- When `later` expressions follow, each weight of a sequence is larger by their number. -/
theorem total_gainsFrom_add (later : ℕ) (sequence : List Expression) :
    Score.total (ctx.gainsFrom (sequence.length + later) sequence) =
      ctx.score sequence + later * ctx.totalInterest sequence := by
  induction sequence with
  | nil => simp [score, gains, gainsFrom, Score.total, totalInterest]
  | cons e rest ih =>
    have hrest : rest.length + 1 + later - 1 = rest.length + later := by omega
    simp only [score, gains, List.length_cons, gainsFrom, Score.total, hrest, Nat.add_sub_cancel,
      totalInterest, List.map_cons, List.sum_cons, gain] at ih ⊢
    rw [ih]
    push_cast
    ring

/-- The scores of two sequences in a row. -/
theorem gainsFrom_append (one two : List Expression) :
    ctx.gainsFrom (one ++ two).length (one ++ two) =
      ctx.gainsFrom (one.length + two.length) one ++ ctx.gainsFrom two.length two := by
  rw [List.length_append]
  induction one with
  | nil => simp [gainsFrom]
  | cons e rest ih =>
    have hrest : rest.length + 1 + two.length - 1 = rest.length + two.length := by omega
    simp only [List.length_cons, List.cons_append, gainsFrom, hrest, ih]

/-- The score of two sequences in a row: the interest of the first one counts once more for every
expression of the second one. -/
theorem score_append (one two : List Expression) :
    ctx.score (one ++ two) =
      ctx.score one + two.length * ctx.totalInterest one + ctx.score two := by
  rw [score, gains, gainsFrom_append, Score.total_append, total_gainsFrom_add]
  rfl

/-- Blocks in a row score no more than reordered blocks that each score at least as much. -/
theorem score_flatten_le {blocks others : List (List Expression)}
    (h : List.Forall₂ (fun block other => block.Perm other ∧ ctx.score block ≤ ctx.score other)
      blocks others) : ctx.score blocks.flatten ≤ ctx.score others.flatten := by
  induction h with
  | nil => exact le_rfl
  | @cons block other blocks others hfirst hrest ih =>
    have hlength : blocks.flatten.length = others.flatten.length :=
      (List.Perm.flatten_congr (hrest.imp fun _ _ h => h.1)).length_eq
    rw [List.flatten_cons, List.flatten_cons, score_append, score_append, hlength,
      totalInterest_perm hfirst.1]
    have := hfirst.2
    omega

end Context

namespace SearchUnit

variable {ctx : Context} {exps : List Expression}

/-- A segment of a unit that none of its valid orders outscores, the lexicographically least one of
its score. -/
structure IsBest (ctx : Context) (unit : SearchUnit exps.length)
    (segment : List (Fin exps.length)) : Prop where
  within : unit.ValidWithin ctx segment
  best : ∀ other, unit.ValidWithin ctx other →
    ctx.score (other.map exps.get) ≤ ctx.score (segment.map exps.get) ∧
      (ctx.score (other.map exps.get) = ctx.score (segment.map exps.get) →
        other = segment ∨ List.Lex (· < ·) (segment.map Fin.val) (other.map Fin.val))

/-- The complete search of a unit finds its best segment. -/
theorem exists_isBest_searchUnit {unit : SearchUnit exps.length}
    (hunit : unit ∈ (ctx.units exps).units)
    (hlimit : unit.members.length ≤ ctx.options.searchLimit) :
    ∃ segment, unit.IsBest ctx segment ∧ (ctx.searchUnit unit).1 = segment.map Fin.val := by
  obtain ⟨segment, hsegment, hfound, hbest⟩ :=
    Context.searchUnit_optimal (Context.isCoherent_of_mem_units hunit) hlimit
  refine ⟨segment, ⟨(isOrder_iff_validWithin hunit segment).1 hsegment, ?_⟩, hfound⟩
  intro other hother
  exact hbest other ((isOrder_iff_validWithin hunit other).2 hother)

end SearchUnit

namespace Context

variable {ctx : Context} {exps : List Expression}

/-- The units are placed one behind the other. -/
theorem order_foldl_placeUnit (placement : Placement) (units : List (SearchUnit exps.length)) :
    (units.foldl ctx.placeUnit placement).order =
      placement.order ++ units.flatMap fun unit => (ctx.searchUnit unit).1 := by
  induction units generalizing placement with
  | nil => simp
  | cons unit rest ih => simp [ih, placeUnit]

/-- No unit is counted as ordered greedily exactly when each one is within the limit. -/
theorem greedyComponents_foldl_placeUnit_eq_zero_iff (placement : Placement)
    (units : List (SearchUnit exps.length)) :
    (units.foldl ctx.placeUnit placement).greedyComponents = 0 ↔
      placement.greedyComponents = 0 ∧
        ∀ unit ∈ units, unit.members.length ≤ ctx.options.searchLimit := by
  induction units generalizing placement with
  | nil => simp
  | cons unit rest ih =>
    rw [List.foldl_cons, ih, List.forall_mem_cons]
    simp only [placeUnit]
    split <;> simp_all

/-- Without a greedy unit every unit is within the limit. -/
theorem length_members_le_of_mode {units : List (SearchUnit exps.length)}
    (hmode : (ctx.arrangeUnits exps units).mode = .exhaustive) :
    ∀ unit ∈ units, unit.members.length ≤ ctx.options.searchLimit := by
  have hgreedy : (units.foldl ctx.placeUnit ⟨[], [], 0, 0, 0, true⟩).greedyComponents = 0 := by
    by_contra hne
    simp [arrangeUnits, placeUnits, Nat.pos_of_ne_zero hne] at hmode
  exact ((greedyComponents_foldl_placeUnit_eq_zero_iff _ units).1 hgreedy).2

/-- Units that are each placed in a segment of some kind are placed in such segments in a row. -/
theorem exists_segments {kind : SearchUnit exps.length → List (Fin exps.length) → Prop}
    {units : List (SearchUnit exps.length)}
    (h : ∀ unit ∈ units, ∃ segment,
      kind unit segment ∧ (ctx.searchUnit unit).1 = segment.map Fin.val) :
    ∃ segments : List (List (Fin exps.length)),
      List.Forall₂ kind units segments ∧
        (units.flatMap fun unit => (ctx.searchUnit unit).1) = segments.flatten.map Fin.val := by
  induction units with
  | nil => exact ⟨[], .nil, rfl⟩
  | cons unit rest ih =>
    rw [List.forall_mem_cons] at h
    obtain ⟨segment, hsegment, hfound⟩ := h.1
    obtain ⟨segments, hsegments, hrestFound⟩ := ih h.2
    refine ⟨segment :: segments, .cons hsegment hsegments, ?_⟩
    rw [List.flatMap_cons, hfound, hrestFound, List.flatten_cons, List.map_append]

/-- The arrangement of units scores what the orders of the units score in a row. -/
theorem score_arrangeUnits_eq_flatten (units : List (SearchUnit exps.length)) :
    (ctx.arrangeUnits exps units).score =
      ctx.score
        (units.map fun unit => Expression.inOrder exps (ctx.searchUnit unit).1).flatten := by
  have horder : (ctx.arrangeUnits exps units).order =
      units.flatMap fun unit => (ctx.searchUnit unit).1 :=
    order_foldl_placeUnit _ _
  rw [score_arrangeUnits, horder]
  exact congrArg ctx.score List.filterMap_flatMap

/-- Completely searched units are placed in their best segments. -/
theorem exists_isBest_segments {units : List (SearchUnit exps.length)}
    (hunits : units ⊆ (ctx.units exps).units)
    (hlimit : ∀ unit ∈ units, unit.members.length ≤ ctx.options.searchLimit) :
    ∃ segments : List (List (Fin exps.length)),
      List.Forall₂ (fun unit segment => unit.IsBest ctx segment) units segments ∧
        (units.flatMap fun unit => (ctx.searchUnit unit).1) = segments.flatten.map Fin.val :=
  exists_segments fun unit hunit =>
    SearchUnit.exists_isBest_searchUnit (hunits hunit) (hlimit unit hunit)

/-- Segments of the same units hold the same number of expressions. -/
theorem length_flatten_segments {units : List (SearchUnit exps.length)}
    {segments : List (List (Fin exps.length))}
    (h : List.Forall₂ (fun unit segment => unit.ValidWithin ctx segment) units segments) :
    segments.flatten.length = (units.flatMap SearchUnit.members).length := by
  induction h with
  | nil => rfl
  | cons hsegment _ ih =>
    rw [List.flatten_cons, List.flatMap_cons, List.length_append, List.length_append,
      hsegment.perm.length_eq, ih]

/-- Best segments of the units make up the best whole order, and an order that scores as much has
in each unit the same segment or a lexicographically greater one. -/
theorem score_flatten_le_of_isBest {units : List (SearchUnit exps.length)}
    {segments others : List (List (Fin exps.length))}
    (hbest : List.Forall₂ (fun unit segment => unit.IsBest ctx segment) units segments)
    (hothers : List.Forall₂ (fun unit other => unit.ValidWithin ctx other) units others) :
    ctx.score (others.flatten.map exps.get) ≤ ctx.score (segments.flatten.map exps.get) ∧
      (ctx.score (others.flatten.map exps.get) = ctx.score (segments.flatten.map exps.get) →
        List.Forall₂ (fun segment other =>
          other = segment ∨ List.Lex (· < ·) (segment.map Fin.val) (other.map Fin.val))
          segments others) := by
  induction hbest generalizing others with
  | nil =>
    cases hothers
    exact ⟨le_rfl, fun _ => .nil⟩
  | @cons unit segment units segments hsegment hsegments ih =>
    obtain _ | ⟨hother, hothers⟩ := hothers
    next other others =>
    obtain ⟨hle, htie⟩ := hsegment.best other hother
    obtain ⟨hrestLe, hrestTie⟩ := ih hothers
    -- the interest of the unit counts once more for each later expression, in either order
    have hinterest : ctx.totalInterest (other.map exps.get) =
        ctx.totalInterest (segment.map exps.get) :=
      totalInterest_perm ((hother.perm.trans hsegment.within.perm.symm).map exps.get)
    have hlength : others.flatten.length = segments.flatten.length :=
      (length_flatten_segments hothers).trans
        (length_flatten_segments (hsegments.imp fun _ _ h => h.within)).symm
    simp only [List.flatten_cons, List.map_append, score_append, List.length_map, hinterest,
      hlength]
    refine ⟨by omega, fun heq => .cons (htie (by omega)) (hrestTie (by omega))⟩

/-- Ordering the units separately costs nothing. When every unit is searched completely, the
arrangement consists of one segment for each unit, in the sequence of the units. Of all orders made
up of valid segments none scores more as a whole, although each unit was searched by itself; and in
an order that scores as much no segment is lexicographically less than the one chosen for its
unit. -/
theorem arrange_segments_optimal {a : Arrangement} (h : ctx.arrange exps = .ok a)
    (hmode : a.mode = .exhaustive) :
    ∃ segments : List (List (Fin exps.length)),
      List.Forall₂ (fun unit segment => unit.ValidWithin ctx segment) (ctx.units exps).units
        segments ∧
      a.order = segments.flatten.map Fin.val ∧
      a.score = ctx.score (segments.flatten.map exps.get) ∧
      ∀ others : List (List (Fin exps.length)),
        List.Forall₂ (fun unit other => unit.ValidWithin ctx other) (ctx.units exps).units
          others →
        ctx.score (others.flatten.map exps.get) ≤ a.score ∧
          (ctx.score (others.flatten.map exps.get) = a.score →
            List.Forall₂ (fun segment other =>
              other = segment ∨ List.Lex (· < ·) (segment.map Fin.val) (other.map Fin.val))
              segments others) := by
  rcases arrange_cases h with ⟨-, rfl⟩ | ⟨-, rfl⟩
  · cases hmode
  · obtain ⟨segments, hbest, hfound⟩ :=
      exists_isBest_segments (List.Subset.refl _) (length_members_le_of_mode hmode)
    have horder : (ctx.arrangeUnits exps (ctx.units exps).units).order =
        segments.flatten.map Fin.val := by
      rw [← hfound]
      exact order_foldl_placeUnit _ _
    have hscore : (ctx.arrangeUnits exps (ctx.units exps).units).score =
        ctx.score (segments.flatten.map exps.get) := by
      rw [score_arrangeUnits, horder, Expression.inOrder_map_val]
    refine ⟨segments, hbest.imp fun _ _ hsegment => hsegment.within, horder, hscore, ?_⟩
    intro others hothers
    rw [hscore]
    exact score_flatten_le_of_isBest hbest hothers

/-- Two pieces, each of which starts at its constrained end: no other way to order both pieces
scores more than seven. -/
theorem arrange_segments_optimal_two_pieces :
    let exps : List Expression :=
      [.hop ⟨"a"⟩ ⟨"b"⟩ none none, .hop ⟨"b"⟩ ⟨"c"⟩ (some "R") none, .labelScan ⟨"d"⟩ "L",
        .hop ⟨"d"⟩ ⟨"e"⟩ none none]
    let pattern := (Pattern.ofDeclarations [.node ⟨"a"⟩ [], .node ⟨"b"⟩ [], .node ⟨"c"⟩ [],
      .node ⟨"d"⟩ [], .node ⟨"e"⟩ []]).toOption.getD .empty
    let ctx : Context := ⟨pattern, .ofList [(⟨"c"⟩ : Alias), ⟨"e"⟩], ∅, .default⟩
    (ctx.units exps).units.length = 2 ∧
      ∃ a, ctx.arrange exps = .ok a ∧ a.mode = .exhaustive ∧ a.order = [1, 0, 3, 2] ∧
        a.score = 7 ∧
        ∀ others, List.Forall₂ (fun unit other => unit.ValidWithin ctx other)
          (ctx.units exps).units others → ctx.score (others.flatten.map exps.get) ≤ 7 := by
  intro exps pattern ctx
  have harrange : ctx.arrange exps =
      .ok ⟨[1, 0, 3, 2], 7, [0, 2], .exhaustive, ⟨2, 4, 0, 0⟩, true⟩ := by decide +kernel
  obtain ⟨segments, -, -, -, hbest⟩ := arrange_segments_optimal harrange rfl
  exact ⟨by decide +kernel, _, harrange, rfl, rfl, rfl, fun others hothers =>
    (hbest others hothers).1⟩

end Context

end PatternTraversal
