import Mathlib.Tactic.Linarith
import Mathlib.Tactic.Positivity
import PatternTraversal.Options.Config
import PatternTraversal.Proofs.Arrangement.Splitting
import PatternTraversal.Proofs.Arrangement.Segments

/-!
# Scores in words

A bonus that is accepted from a configuration is not negative, and neither is any other term of a
score. So sums only grow, and all that an ordering forms on the way fit a word as soon as the score
of the arrangement does: a complete search forms partial sums of orders that score no more than the
best one, and a greedy search compares terms with the largest of them, which it takes. The weighted
interest of fewer than 2 ^ 31 expressions fits a word. A bonus is accepted up to the largest word,
and together they may not fit.
-/

namespace PatternTraversal

namespace Score

/-- The largest signed 64-bit word. -/
def largest : ℤ := 9223372036854775807

/-- Scores up to the largest word that are not negative fit. -/
theorem fits_of_le {score : ℤ} (hnonneg : 0 ≤ score) (hle : score ≤ largest) :
    fits score = true := by
  rw [fits_iff]
  unfold largest at hle
  omega

/-- No score that fits lies above the largest word. -/
theorem le_of_fits {score : ℤ} (h : fits score = true) : score ≤ largest :=
  ((fits_iff score).1 h).2

/-- What weighted interest adds for fewer than 2 ^ 31 expressions is clear of the largest word. -/
theorem weighted_le_largest {count : ℕ} (h : count < 2 ^ 31) :
    (2 * count * (count + 1) : ℤ) ≤ largest - 4294967295 := by
  have hle : (count : ℤ) ≤ 2147483647 := by omega
  have hproduct : (count : ℤ) * (count + 1) ≤ 2147483647 * 2147483648 :=
    mul_le_mul hle (by omega) (by omega) (by omega)
  unfold largest
  linarith

variable {terms : List ℤ}

/-- A sum of terms that are not negative is not negative. -/
theorem total_nonneg (h : ∀ term ∈ terms, 0 ≤ term) : 0 ≤ total terms := by
  induction terms with
  | nil => exact le_rfl
  | cons term rest ih =>
    rw [List.forall_mem_cons] at h
    exact Int.add_nonneg h.1 (ih h.2)

/-- The sum of equal terms and a last one. -/
theorem total_replicate_append (count : ℕ) (term last : ℤ) :
    total (List.replicate count term ++ [last]) = term * count + last := by
  induction count with
  | zero => simp [total]
  | succ count ih =>
    rw [List.replicate_succ, List.cons_append, total, ih]
    push_cast
    ring

/-- When no term is negative, all partial sums fit exactly when the last one does. -/
theorem sumsFitFrom_iff {start : ℤ} (hstart : 0 ≤ start) (h : ∀ term ∈ terms, 0 ≤ term) :
    sumsFitFrom start terms = true ↔ start + total terms ≤ largest := by
  induction terms generalizing start with
  | nil =>
    rw [sumsFitFrom, total, Int.add_zero]
    exact ⟨le_of_fits, fits_of_le hstart⟩
  | cons term rest ih =>
    rw [List.forall_mem_cons] at h
    have hnext : 0 ≤ start + term := Int.add_nonneg hstart h.1
    have hrest : 0 ≤ total rest := total_nonneg h.2
    rw [sumsFitFrom, Bool.and_eq_true, ih hnext h.2, total, ← Int.add_assoc]
    exact ⟨And.right, fun hle => ⟨fits_of_le hstart (by omega), hle⟩⟩

/-- When no term is negative, all partial sums fit exactly when the whole one does. -/
theorem sumsFit_iff (h : ∀ term ∈ terms, 0 ≤ term) :
    sumsFit terms = true ↔ total terms ≤ largest := by
  rw [sumsFit, sumsFitFrom_iff le_rfl h, Int.zero_add]

end Score

namespace Context

variable {ctx : Context}

/-! ## Terms that are not negative -/

section Nonnegative

variable (hbonus : 0 ≤ ctx.options.labelOnlyBonus)

include hbonus

/-- No expression has a negative bonus. -/
theorem bonus_nonneg (e : Expression) : 0 ≤ ctx.bonus e := by
  unfold bonus
  split
  · exact hbonus
  · exact le_rfl

/-- No expression loses score. -/
theorem gain_nonneg (weight : ℕ) (e : Expression) : 0 ≤ ctx.gain weight e :=
  Int.add_nonneg (by positivity) (bonus_nonneg hbonus e)

/-- No expression of an order loses score. -/
theorem gainsFrom_nonneg (remaining : ℕ) (sequence : List Expression) :
    ∀ term ∈ ctx.gainsFrom remaining sequence, 0 ≤ term := by
  induction sequence generalizing remaining with
  | nil => simp [gainsFrom]
  | cons e rest ih =>
    rw [gainsFrom, List.forall_mem_cons]
    exact ⟨gain_nonneg hbonus remaining e, ih (remaining - 1)⟩

/-- The score of an order is not negative. -/
theorem score_nonneg (sequence : List Expression) : 0 ≤ ctx.score sequence :=
  Score.total_nonneg (gainsFrom_nonneg hbonus _ _)

/-- A segment scores no more by itself than all segments as a whole. -/
theorem score_le_score_flatten {segments : List (List Expression)} {segment : List Expression}
    (h : segment ∈ segments) : ctx.score segment ≤ ctx.score segments.flatten := by
  induction segments with
  | nil => exact absurd h List.not_mem_nil
  | cons first rest ih =>
    have hfirst : 0 ≤ ctx.score first := score_nonneg hbonus first
    have hrest : 0 ≤ ctx.score rest.flatten := score_nonneg hbonus rest.flatten
    have hcount : (0 : ℤ) ≤ rest.flatten.length * ctx.totalInterest first := by positivity
    rw [List.flatten_cons, score_append]
    rcases List.mem_cons.1 h with rfl | h
    · omega
    · have := ih h
      omega

end Nonnegative

end Context

namespace SearchUnit

variable {ctx : Context} {exps : List Expression} {unit : SearchUnit exps.length}

/-! ## Scores formed by a search -/

/-- The complete search forms no score above those of the completions. -/
theorem IsCoherent.fitsBelow_of_le (h : unit.IsCoherent ctx)
    (hbonus : 0 ≤ ctx.options.labelOnlyBonus) (remaining : ℕ) {placed : List (Fin exps.length)}
    (hstarted : unit.Started placed) (hlength : placed.length + remaining = unit.members.length)
    {score : ℤ} (hscore : 0 ≤ score)
    (hle : ∀ order ∈ unit.completions ctx remaining placed,
      (rank ctx placed score order).score ≤ Score.largest) :
    unit.fitsBelow ctx remaining placed score = true := by
  induction remaining generalizing placed score with
  | zero => rfl
  | succ remaining ih =>
    rw [fitsBelow_succ, List.all_eq_true]
    intro i hi
    have hgain : 0 ≤ (unit.candidate ctx i).gain (remaining + 1) :=
      Context.gain_nonneg hbonus (remaining + 1) (exps.get i)
    have hstarted := hstarted.cons hi
    have hlength : (i :: placed).length + remaining = unit.members.length := by
      rw [List.length_cons]
      omega
    have hbelow : ∀ order ∈ unit.completions ctx remaining (i :: placed),
        (rank ctx (i :: placed) (score + (unit.candidate ctx i).gain (remaining + 1))
          order).score ≤ Score.largest := by
      intro order horder
      have hcons := hle (i :: order) (List.mem_flatMap.2 ⟨i, hi, List.mem_map_of_mem horder⟩)
      rw [rank_cons, ((Search.mem_completions_iff _ _ _).1 horder).1] at hcons
      exact hcons
    -- the member can be completed, and the completion scores at least what is formed here
    obtain ⟨order, horder⟩ := List.exists_mem_of_ne_nil _
      (Search.completions_ne_nil (fun _ _ => Started.cons) (fun _ => h.nextMembers_ne_nil) _
        hstarted hlength)
    have hformed : score + (unit.candidate ctx i).gain (remaining + 1) ≤ Score.largest := by
      have hrest := Score.total_nonneg
        (Context.gainsFrom_nonneg hbonus order.length (order.map exps.get))
      have := hbelow order horder
      simp only [rank] at this
      omega
    rw [memberFits, Bool.and_eq_true, Bool.and_eq_true]
    exact ⟨⟨Score.fits_of_le hgain (by omega), Score.fits_of_le (by omega) hformed⟩,
      ih hstarted hlength (by omega) hbelow⟩

/-- The greedy search compares no score above those that it takes. -/
theorem greedily_snd_of_le (hbonus : 0 ≤ ctx.options.labelOnlyBonus) (remaining : ℕ)
    (placed : List (Fin exps.length))
    (hle : Score.total (ctx.gainsFrom remaining
      ((unit.greedily ctx remaining placed).1.map exps.get)) ≤ Score.largest) :
    (unit.greedily ctx remaining placed).2 = true := by
  induction remaining generalizing placed with
  | zero => rfl
  | succ remaining ih =>
    cases hchosen : Search.chooseFrom (fun i => (unit.candidate ctx i).gain (remaining + 1)) none
        (unit.nextMembers ctx placed) with
    | none => rw [greedily, hchosen]
    | some i =>
      rw [greedily_succ hchosen] at hle ⊢
      have hgain (j : Fin exps.length) : 0 ≤ (unit.candidate ctx j).gain (remaining + 1) :=
        Context.gain_nonneg hbonus (remaining + 1) (exps.get j)
      have htotal : (unit.candidate ctx i).gain (remaining + 1) + Score.total
          (ctx.gainsFrom remaining ((unit.greedily ctx remaining (i :: placed)).1.map exps.get)) ≤
          Score.largest := hle
      have hrest := Score.total_nonneg (Context.gainsFrom_nonneg hbonus remaining
        ((unit.greedily ctx remaining (i :: placed)).1.map exps.get))
      rw [Bool.and_eq_true, List.all_eq_true]
      refine ⟨fun j hj => Score.fits_of_le (hgain j) ?_, ih _ ?_⟩
      · have hmost := (Search.of_chooseFrom_eq_some hchosen).2 j (by simpa using hj)
        omega
      · have := hgain i
        omega

end SearchUnit

namespace Context

variable {ctx : Context} {exps : List Expression}

/-- All scores formed by the search of a unit fit words when that of the order found does. -/
theorem fits_searchUnit {unit : SearchUnit exps.length} (h : unit.IsCoherent ctx)
    (hbonus : 0 ≤ ctx.options.labelOnlyBonus) {order : List (Fin exps.length)}
    (hfound : (ctx.searchUnit unit).1 = order.map Fin.val)
    (hscore : ctx.score (order.map exps.get) ≤ Score.largest) :
    (ctx.searchUnit unit).2.fits = true := by
  have hinj {other : List (Fin exps.length)}
      (hother : (ctx.searchUnit unit).1 = other.map Fin.val) : order = other :=
    List.map_injective_iff.2 Fin.val_injective (hfound.symm.trans hother)
  rcases Nat.lt_or_ge ctx.options.searchLimit unit.members.length with hlimit | hlimit
  · obtain ⟨hgreedy, -, -, hfits⟩ := searchUnit_of_lt h hlimit
    obtain rfl := hinj hgreedy
    have hlength := h.extend_candidates.1.perm.length_eq
    rw [hfits]
    apply SearchUnit.greedily_snd_of_le hbonus
    rwa [score, gains, List.length_map, hlength] at hscore
  · obtain ⟨best, hbest, -, -⟩ := h.bestCompletion_start
    obtain ⟨order', horder', hfound', hmost⟩ := searchUnit_optimal h hlimit
    obtain rfl := hinj hfound'
    obtain ⟨_, -, hsearch⟩ := searchUnit_of_le h hlimit
    rw [hsearch]
    apply h.fitsBelow_of_le hbonus _ (SearchUnit.started_nil unit) (by simp) le_rfl
    intro other hother
    rw [SearchUnit.rank_start]
    exact (hmost other
      ((SearchUnit.mem_completions_iff_isOrder h.nodup other).1 hother)).1.trans hscore

/-- A placement fits when the searches of all its units do. -/
theorem fits_foldl_placeUnit (placement : Placement) (units : List (SearchUnit exps.length)) :
    (units.foldl ctx.placeUnit placement).fits =
      (placement.fits && units.all fun unit => (ctx.searchUnit unit).2.fits) := by
  induction units generalizing placement with
  | nil => simp
  | cons unit rest ih => simp [ih, placeUnit, Bool.and_assoc]

/-- With a bonus that is not negative all sums of an ordering fit words exactly when the score of
the arrangement does. -/
theorem scoresFit_iff {a : Arrangement} (h : ctx.arrange exps = .ok a)
    (hbonus : 0 ≤ ctx.options.labelOnlyBonus) :
    a.scoresFit = true ↔ a.score ≤ Score.largest := by
  have hsums (sequence : List Expression) :
      Score.sumsFit (ctx.gains sequence) = true ↔ ctx.score sequence ≤ Score.largest :=
    Score.sumsFit_iff (gainsFrom_nonneg hbonus _ _)
  rcases arrange_cases h with ⟨-, rfl⟩ | ⟨-, rfl⟩
  · exact hsums exps
  · have hfits : (ctx.arrangeUnits exps (ctx.units exps).units).scoresFit =
        ((ctx.placeUnits (ctx.units exps).units).fits && Score.sumsFit (ctx.gains
          (Expression.inOrder exps (ctx.arrangeUnits exps (ctx.units exps).units).order))) := rfl
    rw [hfits, Bool.and_eq_true, hsums, ← score_arrangeUnits]
    refine ⟨And.right, fun hle => ⟨?_, hle⟩⟩
    -- the segment of a unit scores no more than all segments as a whole
    rw [score_arrangeUnits_eq_flatten] at hle
    rw [placeUnits, fits_foldl_placeUnit, Bool.true_and, List.all_eq_true]
    intro unit hunit
    obtain ⟨segment, -, hfound, -⟩ := searchUnit_isOrder (isCoherent_of_mem_units hunit)
    apply fits_searchUnit (isCoherent_of_mem_units hunit) hbonus hfound
    rw [← Expression.inOrder_map_val, ← hfound]
    exact (score_le_score_flatten hbonus (List.mem_map_of_mem hunit)).trans hle

/-! ## How large scores get -/

/-- At most two kinds of interest fall on an alias. -/
theorem aliasInterest_le_two (ctx : Context) (ident : Alias) : ctx.aliasInterest ident ≤ 2 := by
  have hfiltered := (ctx.isFiltered ident).toNat_le
  have hbound := (ctx.isBound ident).toNat_le
  unfold aliasInterest
  omega

/-- An expression has the interest of its source and its target, which are one alias when it only
filters. -/
theorem interest_le (ctx : Context) (e : Expression) :
    ctx.interest e ≤ if e.isLabelOnly then 2 else 4 := by
  have hsource := ctx.aliasInterest_le_two e.source
  have htarget := ctx.aliasInterest_le_two e.target
  by_cases h : e.target = e.source
  · simp only [interest, Expression.entities, if_pos h, List.foldr_cons, List.foldr_nil]
    split <;> omega
  · have hnot : e.isLabelOnly = false := by simp [Expression.isLabelOnly, Ne.symm h]
    simp only [interest, Expression.entities, if_neg h, List.foldr_cons, List.foldr_nil, hnot,
      Bool.false_eq_true, if_false]
    omega

/-- A score is the bonus of the expressions that only filter, and what weighted interest adds. -/
theorem score_bounds (ctx : Context) (sequence : List Expression) :
    ctx.options.labelOnlyBonus * sequence.countP Expression.isLabelOnly ≤ ctx.score sequence ∧
      ctx.score sequence + sequence.countP Expression.isLabelOnly *
          (sequence.countP Expression.isLabelOnly + 1) ≤
        ctx.options.labelOnlyBonus * sequence.countP Expression.isLabelOnly +
          2 * sequence.length * (sequence.length + 1) := by
  induction sequence with
  | nil => simp [score, gains, gainsFrom, Score.total]
  | cons e rest ih =>
    have hcount : (rest.countP Expression.isLabelOnly : ℤ) ≤ rest.length := by
      exact_mod_cast List.countP_le_length
    have hweight : (0 : ℤ) ≤ (rest.length + 1 : ℕ) * ctx.interest e := by positivity
    have hinterest : ((rest.length + 1 : ℕ) * ctx.interest e : ℤ) ≤
        (rest.length + 1 : ℕ) * (if e.isLabelOnly then 2 else 4 : ℕ) := by
      exact_mod_cast Nat.mul_le_mul_left _ (ctx.interest_le e)
    obtain ⟨hlow, hhigh⟩ := ih
    rw [score_cons, gain, bonus, List.countP_cons, List.length_cons]
    cases h : e.isLabelOnly with
    | true =>
      simp only [h, if_true] at hinterest ⊢
      push_cast at hweight hinterest ⊢
      constructor <;> linarith
    | false =>
      simp only [h, Bool.false_eq_true, if_false, Nat.add_zero] at hinterest ⊢
      push_cast at hweight hinterest ⊢
      constructor <;> linarith

/-- The score of an arrangement is that of its list in another order. -/
theorem exists_perm_score {a : Arrangement} (h : ctx.arrange exps = .ok a) :
    ∃ sequence : List Expression, sequence.Perm exps ∧ a.score = ctx.score sequence := by
  have hperm := arrange_order_perm h
  rcases arrange_cases h with ⟨-, rfl⟩ | ⟨-, rfl⟩
  · exact ⟨exps, .refl _, rfl⟩
  · exact ⟨_, Expression.inOrder_perm hperm, score_arrangeUnits _⟩

/-- The score of an arrangement is the bonus of the expressions that only filter, and what weighted
interest adds. -/
theorem score_bounds_of_arrange {a : Arrangement} (h : ctx.arrange exps = .ok a) :
    ctx.options.labelOnlyBonus * exps.countP Expression.isLabelOnly ≤ a.score ∧
      a.score + exps.countP Expression.isLabelOnly *
          (exps.countP Expression.isLabelOnly + 1) ≤
        ctx.options.labelOnlyBonus * exps.countP Expression.isLabelOnly +
          2 * exps.length * (exps.length + 1) := by
  obtain ⟨sequence, hperm, hscore⟩ := exists_perm_score h
  rw [hscore, ← hperm.countP_eq, ← hperm.length_eq]
  exact ctx.score_bounds sequence

/-- The additions of one contribution stay in range exactly when the contribution does. -/
theorem wordContribution?_eq_none_iff (hbonus : 0 ≤ ctx.options.labelOnlyBonus) (e : Expression)
    (position total : UInt64) (htotal : total.toNat < 2 ^ 31) :
    ctx.wordContribution? e position total = none ↔
      Score.largest < ctx.contribution e position.toNat total.toNat := by
  have hweight : (UInt64.ofNat (total.toNat - position.toNat)).toInt64.toInt =
      (total.toNat - position.toNat : ℕ) := by
    rw [UInt64.toInt64_ofNat', Int64.toInt_ofNat_of_lt (by omega)]
  have hterms : ∀ term ∈ List.replicate (ctx.interest e) ((total.toNat - position.toNat : ℕ) : ℤ) ++
      [ctx.bonus e], 0 ≤ term := by
    intro term hterm
    rcases List.mem_append.1 hterm with hterm | hterm
    · rw [List.eq_of_mem_replicate hterm]
      positivity
    · rw [List.mem_singleton.1 hterm]
      exact bonus_nonneg hbonus e
  have hsums := Score.sumsFit_iff hterms
  rw [Score.total_replicate_append] at hsums
  rw [wordContribution?, hweight, contribution, gain, ← not_le, ← hsums]
  simp

/-- Whatever options are accepted, fewer than 2 ^ 31 expressions are left without an answer exactly
when the score of their arrangement lies above the largest word. What the score has beside the bonus
of the expressions that only filter always fits a word, so there is an answer when no expression
only filters, and when the bonus is at most 2 ^ 17. The additions of a single contribution leave the
range only with the contribution itself. -/
theorem overflow_iff_largest_lt_score {given : Options.Given} {ctx : Context}
    (hoptions : Options.ofGiven given = .ok ctx.options) {exps : List Expression}
    (hlength : exps.length < 2 ^ 31) :
    (ctx.answer? exps = none ↔ ∃ a, ctx.arrange exps = .ok a ∧ Score.largest < a.score) ∧
    (∀ a, ctx.arrange exps = .ok a →
      ctx.options.labelOnlyBonus * exps.countP Expression.isLabelOnly ≤ a.score ∧
      a.score ≤ ctx.options.labelOnlyBonus * exps.countP Expression.isLabelOnly +
        2 * exps.length * (exps.length + 1) ∧
      (2 * exps.length * (exps.length + 1) : ℤ) ≤ Score.largest) ∧
    ((∀ e ∈ exps, e.isLabelOnly = false) ∨ ctx.options.labelOnlyBonus ≤ 131072 →
      ctx.answer? exps ≠ none) ∧
    ∀ e (position total : UInt64), total.toNat < 2 ^ 31 →
      (ctx.wordContribution? e position total = none ↔
        Score.largest < ctx.contribution e position.toNat total.toNat) := by
  have hbonus : 0 ≤ ctx.options.labelOnlyBonus :=
    ((Options.ofGiven_eq_ok_iff given ctx.options).1 hoptions).2.2.2
  have hanswer : ctx.answer? exps = none ↔
      ∃ a, ctx.arrange exps = .ok a ∧ Score.largest < a.score := by
    rw [answer?_eq_none_iff]
    refine exists_congr fun a => and_congr_right fun h => ?_
    rw [← Bool.not_eq_true, scoresFit_iff h hbonus, not_le]
  have hweighted := Score.weighted_le_largest hlength
  refine ⟨hanswer, fun a h => ?_, ?_, fun e position total htotal =>
    wordContribution?_eq_none_iff hbonus e position total htotal⟩
  · obtain ⟨hlow, hhigh⟩ := score_bounds_of_arrange h
    have hsquare : (0 : ℤ) ≤ exps.countP Expression.isLabelOnly *
      (exps.countP Expression.isLabelOnly + 1) := by positivity
    exact ⟨hlow, by linarith, by linarith⟩
  · intro hsmall hnone
    obtain ⟨a, h, hlarge⟩ := hanswer.1 hnone
    obtain ⟨-, hhigh⟩ := score_bounds_of_arrange h
    rcases hsmall with hnone | hsmall
    · have hcount : exps.countP Expression.isLabelOnly = 0 := by
        rw [List.countP_eq_zero]
        simpa using hnone
      rw [hcount] at hhigh
      push_cast at hhigh
      linarith
    · have hsquare := sq_nonneg (2 * (exps.countP Expression.isLabelOnly : ℤ) - 131071)
      have hproduct := mul_le_mul_of_nonneg_right hsmall
        (Int.natCast_nonneg (exps.countP Expression.isLabelOnly))
      nlinarith

/-- With the largest bonus one label test is answered and two are not. -/
theorem overflow_iff_largest_lt_score_two_scans :
    let given : Options.Given := ⟨none, some 9223372036854775807, none⟩
    let options : Options := ⟨8, 9223372036854775807, true⟩
    let exps : List Expression := [.labelScan ⟨"a"⟩ "L", .labelScan ⟨"b"⟩ "M"]
    let pattern := (Pattern.ofDeclarations [.node ⟨"a"⟩ [], .node ⟨"b"⟩ []]).toOption.getD .empty
    let ctx : Context := ⟨pattern, ∅, ∅, options⟩
    Options.ofGiven given = .ok ctx.options ∧ exps.length < 2 ^ 31 ∧
      ctx.answer? exps = none ∧ ctx.answer? (exps.take 1) ≠ none := by
  intro given options exps pattern ctx
  have hoptions : Options.ofGiven given = .ok ctx.options := by decide
  have hone : ctx.arrange (exps.take 1) =
      .ok ⟨[0], 9223372036854775807, [0], .trivial, ⟨1, 0, 0, 0⟩, true⟩ := by decide +kernel
  have htwo : ctx.arrange exps =
      .ok ⟨[0, 1], 18446744073709551614, [0, 1], .exhaustive, ⟨2, 2, 0, 0⟩, false⟩ := by
    decide +kernel
  obtain ⟨hanswerTwo, -⟩ := overflow_iff_largest_lt_score hoptions
    (show exps.length < 2 ^ 31 by decide)
  obtain ⟨hanswerOne, -⟩ := overflow_iff_largest_lt_score hoptions
    (show (exps.take 1).length < 2 ^ 31 by decide)
  refine ⟨hoptions, by decide, hanswerTwo.2 ⟨_, htwo, by decide⟩, fun hnone => ?_⟩
  obtain ⟨a, ha, hlarge⟩ := hanswerOne.1 hnone
  cases hone.symm.trans ha
  exact absurd hlarge (by decide)

/-- The largest bonus is accepted, and a single label test on a constrained alias then has no
answer: its contribution leaves the range of a word. -/
theorem answer?_of_constrained_scan :
    let given : Options.Given := ⟨none, some 9223372036854775807, none⟩
    let options : Options := ⟨8, 9223372036854775807, true⟩
    let exps : List Expression := [.labelScan ⟨"a"⟩ "L"]
    let pattern := (Pattern.ofDeclarations [.node ⟨"a"⟩ []]).toOption.getD .empty
    let filter : Condition := .compare .eq (.property ⟨"a"⟩ "x") (.literal (.int 1))
    let ctx := ofInputs pattern (some filter) ∅ options
    Options.ofGiven given = .ok options ∧ ctx.check exps = .ok () ∧ exps.length < 2 ^ 31 ∧
      ctx.wordContribution? (.labelScan ⟨"a"⟩ "L") 0 1 = none ∧ ctx.answer? exps = none := by
  intro given options exps pattern filter ctx
  refine ⟨?_, ?_, ?_, ?_, ?_⟩ <;> decide +kernel

end Context

end PatternTraversal
