import PatternTraversal.Proofs.Arrangement.Segments
import PatternTraversal.Proofs.Arrangement.Splitting

/-!
# Changing one setting

Neither the limit nor the bonus has a say in the units of a list or in which orders are valid. A
larger limit searches more units completely, each with a score that is no smaller, and no unit
moves; so the whole order scores no less. A bonus adds the same to every order of a unit, as it
counts the expressions that only filter; so a complete search finds the same order under any bonus.
-/

namespace PatternTraversal

namespace Context

/-- The context under another limit of the complete search. -/
def limited (ctx : Context) (limit : ℕ) : Context :=
  { ctx with options := { ctx.options with exhaustiveLimit := limit } }

/-- The context under another bonus of the expressions that only filter. -/
def awarding (ctx : Context) (bonus : ℤ) : Context :=
  { ctx with options := { ctx.options with labelOnlyBonus := bonus } }

variable {ctx : Context} {exps : List Expression}

/-- Under options that split alike a list is refused alike, or left as it is, or ordered by the same
units. -/
theorem arrange_cases_of_options (ctx other : Context)
    (hother : other = { ctx with options := other.options })
    (hsplit : other.options.splitComponents = ctx.options.splitComponents)
    (exps : List Expression) :
    (∃ error, ctx.arrange exps = .error error ∧ other.arrange exps = .error error) ∨
    (exps.length ≤ 1 ∧ ctx.arrange exps = .ok (ctx.arrangeTrivially exps) ∧
      other.arrange exps = .ok (other.arrangeTrivially exps)) ∨
    ctx.arrange exps = .ok (ctx.arrangeUnits exps (ctx.units exps).units) ∧
      other.arrange exps = .ok (other.arrangeUnits exps (ctx.units exps).units) := by
  have hcheck : other.check exps = ctx.check exps := by
    rw [hother]
    rfl
  have hunits : other.units exps = ctx.units exps := by
    rw [hother]
    rfl
  simp only [arrange, hcheck, hunits, hsplit]
  cases ctx.check exps with
  | error error => exact .inl ⟨error, rfl, rfl⟩
  | ok =>
    dsimp only
    split
    · next hle => exact .inr (.inl ⟨hle, rfl, rfl⟩)
    · split
      · exact .inl ⟨_, rfl, rfl⟩
      · exact .inr (.inr ⟨rfl, rfl⟩)

/-! ## The limit -/

/-- The limit is no matter of scores. -/
theorem score_limited (limit : ℕ) (sequence : List Expression) :
    (ctx.limited limit).score sequence = ctx.score sequence := by
  apply congrArg Score.total
  apply gainsFrom_congr
  intro weight e
  rfl

/-- The limit is no matter of the orders of a unit. -/
theorem isOrder_limited_iff (limit : ℕ) (unit : SearchUnit exps.length)
    (order : List (Fin exps.length)) :
    unit.IsOrder (ctx.limited limit) order ↔ unit.IsOrder ctx order :=
  ⟨fun h => ⟨h.perm, h.opens, h.valid⟩, fun h => ⟨h.perm, h.opens, h.valid⟩⟩

/-- The limit is no matter of the units. -/
theorem isCoherent_limited {unit : SearchUnit exps.length} (h : unit ∈ (ctx.units exps).units)
    (limit : ℕ) : unit.IsCoherent (ctx.limited limit) :=
  isCoherent_of_mem_units h

/-- Under a larger limit the order found for a unit scores no less. -/
theorem score_searchUnit_limited_le {low high : ℕ} (hle : low ≤ high)
    {unit : SearchUnit exps.length} (hunit : unit ∈ (ctx.units exps).units) :
    (Expression.inOrder exps ((ctx.limited low).searchUnit unit).1).Perm
        (Expression.inOrder exps ((ctx.limited high).searchUnit unit).1) ∧
      ctx.score (Expression.inOrder exps ((ctx.limited low).searchUnit unit).1) ≤
        ctx.score (Expression.inOrder exps ((ctx.limited high).searchUnit unit).1) := by
  have hlimits : (ctx.limited low).options.searchLimit ≤ (ctx.limited high).options.searchLimit :=
    min_le_min_right _ hle
  rcases Nat.lt_or_ge (ctx.limited high).options.searchLimit unit.members.length with
    hbeyond | hwithin
  · -- beyond the larger limit both searches are the greedy one
    have hsame : (ctx.limited high).searchUnit unit = (ctx.limited low).searchUnit unit := by
      rw [searchUnit, searchUnit, if_neg (by omega), if_neg (by omega)]
      rfl
    rw [hsame]
    exact ⟨.refl _, le_rfl⟩
  · obtain ⟨best, hbest, hfoundBest, hmost⟩ :=
      searchUnit_optimal (isCoherent_limited hunit high) hwithin
    obtain ⟨order, horder, hfound, -⟩ := searchUnit_isOrder (isCoherent_limited hunit low)
    have hscore := (hmost order
      ((isOrder_limited_iff high unit order).2 ((isOrder_limited_iff low unit order).1 horder))).1
    rw [score_limited, score_limited] at hscore
    rw [hfound, hfoundBest, Expression.inOrder_map_val, Expression.inOrder_map_val]
    exact ⟨(horder.perm.trans hbest.perm.symm).map _, hscore⟩

/-- Under a larger limit the arrangement of the units scores no less. -/
theorem score_arrangeUnits_limited_le {low high : ℕ} (hle : low ≤ high) :
    ((ctx.limited low).arrangeUnits exps (ctx.units exps).units).score ≤
      ((ctx.limited high).arrangeUnits exps (ctx.units exps).units).score := by
  rw [score_arrangeUnits_eq_flatten, score_arrangeUnits_eq_flatten, score_limited, score_limited]
  apply score_flatten_le
  rw [List.forall₂_map_left_iff, List.forall₂_map_right_iff, List.forall₂_same]
  exact fun unit hunit => score_searchUnit_limited_le hle hunit

/-- The orders of a unit have the length of the unit. -/
theorem length_searchUnit {unit : SearchUnit exps.length} (h : unit.IsCoherent ctx) :
    (ctx.searchUnit unit).1.length = unit.members.length := by
  obtain ⟨order, horder, hfound, -⟩ := searchUnit_isOrder h
  rw [hfound, List.length_map, horder.perm.length_eq]

/-- The roots of a placement follow from the lengths of the orders placed. -/
theorem roots_foldl_placeUnit_congr {other : Context} {units : List (SearchUnit exps.length)}
    (h : ∀ unit ∈ units,
      (other.searchUnit unit).1.length = (ctx.searchUnit unit).1.length)
    {placement otherPlacement : Placement} (hroots : otherPlacement.roots = placement.roots)
    (horder : otherPlacement.order.length = placement.order.length) :
    (units.foldl other.placeUnit otherPlacement).roots =
      (units.foldl ctx.placeUnit placement).roots := by
  induction units generalizing placement otherPlacement with
  | nil => exact hroots
  | cons unit rest ih =>
    rw [List.forall_mem_cons] at h
    refine ih h.2 ?_ ?_
    · simp only [placeUnit, hroots, horder]
    · simp only [placeUnit, List.length_append, horder, h.1]

/-- A larger limit never hurts. Under two limits a list is refused with the same error, or it is
arranged under both with the same roots and as many units, and under the larger limit the
arrangement scores no less. -/
theorem score_le_of_limit_le (ctx : Context) (exps : List Expression) {low high : ℕ}
    (hle : low ≤ high) :
    (∃ error, (ctx.limited low).arrange exps = .error error ∧
      (ctx.limited high).arrange exps = .error error) ∨
    ∃ a b, (ctx.limited low).arrange exps = .ok a ∧ (ctx.limited high).arrange exps = .ok b ∧
      b.roots = a.roots ∧ b.stats.components = a.stats.components ∧ a.score ≤ b.score := by
  rcases arrange_cases_of_options (ctx.limited low) (ctx.limited high) rfl rfl exps with
    hrefused | ⟨-, hlow, hhigh⟩ | ⟨hlow, hhigh⟩
  · exact .inl hrefused
  · refine .inr ⟨_, _, hlow, hhigh, rfl, rfl, ?_⟩
    exact le_of_eq ((score_limited low exps).trans (score_limited high exps).symm)
  · refine .inr ⟨_, _, hlow, hhigh, ?_, rfl, score_arrangeUnits_limited_le hle⟩
    refine roots_foldl_placeUnit_congr (fun unit hunit => ?_) rfl rfl
    exact (length_searchUnit (isCoherent_limited hunit high)).trans
      (length_searchUnit (isCoherent_limited hunit low)).symm

/-- One end of a chain lures the greedy search away from the two constrained hops at the other. -/
theorem score_le_of_limit_le_chain :
    let exps : List Expression := [.hop ⟨"a"⟩ ⟨"b"⟩ none none, .hop ⟨"b"⟩ ⟨"c"⟩ none none,
      .hop ⟨"c"⟩ ⟨"x"⟩ none none, .hop ⟨"x"⟩ ⟨"y"⟩ none none]
    let pattern := (Pattern.ofDeclarations [.node ⟨"a"⟩ [], .node ⟨"b"⟩ [], .node ⟨"c"⟩ [],
      .node ⟨"x"⟩ [], .node ⟨"y"⟩ []]).toOption.getD .empty
    let ctx : Context := ⟨pattern, .ofList [(⟨"a"⟩ : Alias), ⟨"x"⟩], ∅, .default⟩
    0 ≤ 8 ∧ ∃ a b, (ctx.limited 0).arrange exps = .ok a ∧ (ctx.limited 8).arrange exps = .ok b ∧
      a.mode = .greedy ∧ b.mode = .exhaustive ∧ a.score = 7 ∧ b.score = 8 ∧
      b.roots = a.roots ∧ b.stats.components = a.stats.components ∧ a.score ≤ b.score := by
  intro exps pattern ctx
  have hlow : (ctx.limited 0).arrange exps =
      .ok ⟨[0, 1, 2, 3], 7, [0], .greedy, ⟨1, 0, 0, 1⟩, true⟩ := by decide +kernel
  have hhigh : (ctx.limited 8).arrange exps =
      .ok ⟨[2, 3, 1, 0], 8, [0], .exhaustive, ⟨1, 8, 0, 0⟩, true⟩ := by decide +kernel
  obtain ⟨error, herror, -⟩ | ⟨a, b, ha, hb, hroots, hcomponents, hscore⟩ :=
    score_le_of_limit_le ctx exps (show 0 ≤ 8 by decide)
  · cases hlow.symm.trans herror
  · cases hlow.symm.trans ha
    cases hhigh.symm.trans hb
    exact ⟨by decide, _, _, hlow, hhigh, rfl, rfl, rfl, rfl, hroots, hcomponents, hscore⟩

end Context

/-! ## The bonus -/

namespace Ranked

/-- An order with a raised score. -/
def raise (amount : ℤ) (ranked : Ranked) : Ranked :=
  { ranked with score := ranked.score + amount }

/-- Raising both scores alike changes nothing about which order is better. -/
theorem first_map_raise (amount : ℤ) (earlier? later? : Option Ranked) :
    first (earlier?.map (raise amount)) (later?.map (raise amount)) =
      (first earlier? later?).map (raise amount) := by
  cases earlier? with
  | none => rfl
  | some earlier =>
    cases later? with
    | none => rfl
    | some later =>
      simp only [first, Option.map_some, raise, Int.add_lt_add_iff_right]
      split <;> rfl

/-- Raising all scores alike changes nothing about which order is the first best. -/
theorem best_map_raise (amount : ℤ) (all : List Ranked) :
    best (all.map (raise amount)) = (best all).map (raise amount) := by
  induction all with
  | nil => rfl
  | cons ranked rest ih => rw [List.map_cons, best, ih, best, ← first_map_raise, Option.map_some]

end Ranked

namespace Context

variable {ctx : Context} {exps : List Expression}

/-- Another bonus adds its difference once for every expression that only filters. -/
theorem total_gainsFrom_awarding (ctx : Context) (one two : ℤ) (remaining : ℕ)
    (sequence : List Expression) :
    Score.total ((ctx.awarding two).gainsFrom remaining sequence) =
      Score.total ((ctx.awarding one).gainsFrom remaining sequence) +
        (two - one) * sequence.countP Expression.isLabelOnly := by
  induction sequence generalizing remaining with
  | nil => simp [gainsFrom, Score.total]
  | cons e rest ih =>
    have hinterest : (ctx.awarding two).interest e = (ctx.awarding one).interest e := rfl
    have hbonus (bonus : ℤ) : (ctx.awarding bonus).bonus e = if e.isLabelOnly then bonus else 0 :=
      rfl
    rw [gainsFrom, gainsFrom, Score.total, Score.total, ih, gain, gain, hinterest, hbonus, hbonus,
      List.countP_cons]
    split <;> push_cast <;> ring

/-- The score of an order under another bonus. -/
theorem score_awarding (ctx : Context) (one two : ℤ) (sequence : List Expression) :
    (ctx.awarding two).score sequence =
      (ctx.awarding one).score sequence + (two - one) * sequence.countP Expression.isLabelOnly :=
  ctx.total_gainsFrom_awarding one two sequence.length sequence

/-- The bonus is no matter of the units. -/
theorem isCoherent_awarding {unit : SearchUnit exps.length} (h : unit ∈ (ctx.units exps).units)
    (bonus : ℤ) : unit.IsCoherent (ctx.awarding bonus) :=
  isCoherent_of_mem_units h

/-- The complete orders of a unit hold the same expressions, so another bonus raises all of their
scores alike. -/
theorem bestCompletion_awarding {unit : SearchUnit exps.length}
    (hunit : unit ∈ (ctx.units exps).units) (one two : ℤ) :
    unit.bestCompletion (ctx.awarding two) unit.members.length [] 0 =
      (unit.bestCompletion (ctx.awarding one) unit.members.length [] 0).map
        (Ranked.raise ((two - one) *
          (unit.members.map exps.get).countP Expression.isLabelOnly)) := by
  have hcompletions : unit.completions (ctx.awarding two) unit.members.length [] =
      unit.completions (ctx.awarding one) unit.members.length [] := rfl
  rw [SearchUnit.bestCompletion, SearchUnit.bestCompletion, hcompletions, ← Ranked.best_map_raise,
    List.map_map]
  congr 1
  refine List.map_congr_left fun order horder => ?_
  have hperm := ((SearchUnit.mem_completions_iff_isOrder
    (isCoherent_awarding hunit one).nodup order).1 horder).perm
  rw [Function.comp_apply, SearchUnit.rank_start, SearchUnit.rank_start, ctx.score_awarding one two,
    (hperm.map exps.get).countP_eq, Ranked.raise]

/-- The complete search of a unit finds the same order under another bonus, and scores as many. -/
theorem searchUnit_awarding {unit : SearchUnit exps.length}
    (hunit : unit ∈ (ctx.units exps).units) (one two : ℤ)
    (hlimit : unit.members.length ≤ ctx.options.searchLimit) :
    ((ctx.awarding two).searchUnit unit).1 = ((ctx.awarding one).searchUnit unit).1 ∧
      ((ctx.awarding two).searchUnit unit).2.scored =
        ((ctx.awarding one).searchUnit unit).2.scored ∧
      ((ctx.awarding two).searchUnit unit).2.deadEnds =
        ((ctx.awarding one).searchUnit unit).2.deadEnds := by
  obtain ⟨bestOne, hbestOne, hone⟩ := searchUnit_of_le (isCoherent_awarding hunit one) hlimit
  obtain ⟨bestTwo, hbestTwo, htwo⟩ := searchUnit_of_le (isCoherent_awarding hunit two) hlimit
  rw [bestCompletion_awarding hunit one two, hbestOne] at hbestTwo
  cases hbestTwo
  rw [hone, htwo]
  exact ⟨rfl, rfl, rfl⟩

/-- Placements that differ at most in whether the scores formed fit words. -/
structure Placement.Agrees (one two : Placement) : Prop where
  order : one.order = two.order
  roots : one.roots = two.roots
  scored : one.scored = two.scored
  deadEnds : one.deadEnds = two.deadEnds
  greedyComponents : one.greedyComponents = two.greedyComponents

/-- Units that are searched alike are placed alike. -/
theorem Placement.Agrees.foldl_placeUnit {other : Context} {units : List (SearchUnit exps.length)}
    {one two : Placement} (hagrees : one.Agrees two)
    (hlimit : other.options.searchLimit = ctx.options.searchLimit)
    (h : ∀ unit ∈ units, (other.searchUnit unit).1 = (ctx.searchUnit unit).1 ∧
      (other.searchUnit unit).2.scored = (ctx.searchUnit unit).2.scored ∧
      (other.searchUnit unit).2.deadEnds = (ctx.searchUnit unit).2.deadEnds) :
    (units.foldl other.placeUnit one).Agrees (units.foldl ctx.placeUnit two) := by
  induction units generalizing one two with
  | nil => exact hagrees
  | cons unit rest ih =>
    rw [List.forall_mem_cons] at h
    obtain ⟨⟨horder, hscored, hdead⟩, hrest⟩ := h
    refine ih ⟨?_, ?_, ?_, ?_, ?_⟩ hrest
    · simp only [placeUnit, hagrees.order, horder]
    · simp only [placeUnit, hagrees.roots, hagrees.order]
    · simp only [placeUnit, hagrees.scored, hscored]
    · simp only [placeUnit, hagrees.deadEnds, hdead]
    · simp only [placeUnit, hagrees.greedyComponents, hlimit]

/-- Units that are all searched completely under one bonus are placed alike under another one. -/
theorem arrangeUnits_awarding {units : List (SearchUnit exps.length)}
    (hunits : units ⊆ (ctx.units exps).units) {one : ℤ}
    (hmode : ((ctx.awarding one).arrangeUnits exps units).mode = .exhaustive) (two : ℤ) :
    ((ctx.awarding two).arrangeUnits exps units).mode = .exhaustive ∧
      ((ctx.awarding two).arrangeUnits exps units).order =
        ((ctx.awarding one).arrangeUnits exps units).order ∧
      ((ctx.awarding two).arrangeUnits exps units).roots =
        ((ctx.awarding one).arrangeUnits exps units).roots ∧
      ((ctx.awarding two).arrangeUnits exps units).stats =
        ((ctx.awarding one).arrangeUnits exps units).stats := by
  have hlimit := length_members_le_of_mode hmode
  have hagrees : ((ctx.awarding two).placeUnits units).Agrees
      ((ctx.awarding one).placeUnits units) :=
    Placement.Agrees.foldl_placeUnit ⟨rfl, rfl, rfl, rfl, rfl⟩ rfl fun unit hunit =>
      searchUnit_awarding (hunits hunit) one two (hlimit unit hunit)
  refine ⟨?_, hagrees.order, hagrees.roots, ?_⟩
  · rw [← hmode]
    simp only [arrangeUnits, hagrees.greedyComponents]
  · simp only [arrangeUnits, hagrees.scored, hagrees.deadEnds, hagrees.greedyComponents]

/-- The bonus moves nothing in a complete search. When all units are searched completely under one
bonus, then so they are under any other one, with the same order, roots and counts. The scores
differ by the difference of the bonuses for every expression that only filters. -/
theorem arrange_awarding {a : Arrangement} {one : ℤ} (h : (ctx.awarding one).arrange exps = .ok a)
    (hmode : a.mode = .exhaustive) (two : ℤ) :
    ∃ b, (ctx.awarding two).arrange exps = .ok b ∧ b.mode = .exhaustive ∧ b.order = a.order ∧
      b.roots = a.roots ∧ b.stats = a.stats ∧
      b.score - a.score = (two - one) * exps.countP Expression.isLabelOnly := by
  rcases arrange_cases_of_options (ctx.awarding one) (ctx.awarding two) rfl rfl exps with
    ⟨error, herror, -⟩ | ⟨-, htrivial, -⟩ | ⟨hone, htwo⟩
  · cases h.symm.trans herror
  · cases h.symm.trans htrivial
    cases hmode
  · cases h.symm.trans hone
    obtain ⟨hmode, horder, hroots, hstats⟩ :=
      arrangeUnits_awarding (List.Subset.refl (ctx.units exps).units) hmode two
    refine ⟨_, htwo, hmode, horder, hroots, hstats, ?_⟩
    have hperm := Expression.inOrder_perm (arrange_order_perm h)
    change ((ctx.awarding two).arrangeUnits exps (ctx.units exps).units).score -
      ((ctx.awarding one).arrangeUnits exps (ctx.units exps).units).score = _
    rw [score_arrangeUnits, score_arrangeUnits, horder, ctx.score_awarding one two,
      ← hperm.countP_eq]
    exact add_sub_cancel_left _ _

/-- A label test stays behind the hops of its piece even when it is worth a hundred. -/
theorem arrange_awarding_two_pieces :
    let exps : List Expression := [.labelScan ⟨"a"⟩ "L", .hop ⟨"a"⟩ ⟨"b"⟩ none none,
      .hop ⟨"b"⟩ ⟨"c"⟩ none none, .labelScan ⟨"d"⟩ "M"]
    let pattern := (Pattern.ofDeclarations [.node ⟨"a"⟩ [], .node ⟨"b"⟩ [], .node ⟨"c"⟩ [],
      .node ⟨"d"⟩ []]).toOption.getD .empty
    let ctx : Context := ⟨pattern, .ofList [(⟨"c"⟩ : Alias)], ∅, .default⟩
    ∃ a b, (ctx.awarding 1).arrange exps = .ok a ∧ a.mode = .exhaustive ∧
      (ctx.awarding 100).arrange exps = .ok b ∧ b.mode = .exhaustive ∧ b.order = a.order ∧
      a.order = [2, 1, 0, 3] ∧ b.roots = a.roots ∧ b.stats = a.stats ∧
      b.score - a.score = (100 - 1) * 2 := by
  intro exps pattern ctx
  have hone : (ctx.awarding 1).arrange exps =
      .ok ⟨[2, 1, 0, 3], 6, [0, 3], .exhaustive, ⟨2, 5, 0, 0⟩, true⟩ := by decide +kernel
  obtain ⟨b, htwo, hmode, horder, hroots, hstats, hscore⟩ := arrange_awarding hone rfl 100
  exact ⟨_, b, hone, rfl, htwo, hmode, horder, rfl, hroots, hstats, hscore⟩

end Context

end PatternTraversal
