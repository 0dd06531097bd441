import PatternTraversal.Proofs.Arrangement.Roots

/-!
# The complete search is optimal

A list with a valid order has one search unit, and every valid order of the list starts where the
unit may start. So the orders of the unit are the valid orders of the list, and the unit's first
best order is the best valid order of the list, the lexicographically least one of its score.
-/

namespace PatternTraversal

namespace Context

variable {ctx : Context} {exps : List Expression}

/-- Places below the length of a list, read as such. -/
theorem ValidOrder.exists_fin {order : List ℕ} (h : ctx.ValidOrder exps order) :
    ∃ places : List (Fin exps.length), order = places.map Fin.val ∧
      places.Perm (List.finRange exps.length) ∧ ctx.ValidSequence (places.map exps.get) := by
  obtain ⟨places, rfl, hperm⟩ := Expression.exists_places h.perm
  have hvalid := h.valid
  rw [Expression.inOrder_map_val] at hvalid
  exact ⟨places, rfl, hperm, hvalid⟩

/-- A valid order given by its places. -/
theorem validOrder_map_val {places : List (Fin exps.length)}
    (hperm : places.Perm (List.finRange exps.length))
    (hvalid : ctx.ValidSequence (places.map exps.get)) : ctx.ValidOrder exps (places.map Fin.val) :=
  ⟨by simpa using hperm.map Fin.val, by rwa [Expression.inOrder_map_val]⟩

/-- A list of more than one expression with a valid order is one unit, whose orders are the valid
orders of the list. -/
theorem exists_unit_of_validOrder (hlength : 1 < exps.length)
    (hvalid : ∃ order, ctx.ValidOrder exps order) :
    ∃ unit, (ctx.units exps).units = [unit] ∧ unit.IsCoherent ctx ∧
      ∀ places, unit.IsOrder ctx places ↔
        places.Perm (List.finRange exps.length) ∧ ctx.ValidSequence (places.map exps.get) := by
  obtain ⟨order, horder⟩ := hvalid
  obtain ⟨places, -, hperm, hsequence⟩ := horder.exists_fin
  have hle : (ctx.units exps).units.length ≤ 1 :=
    (length_units_le ctx exps).trans (max_le le_rfl (unanchored_le_one hperm hsequence))
  have hmembers := units_members_perm ctx exps
  match hunits : (ctx.units exps).units with
  | [] =>
    rw [hunits] at hmembers
    have := hmembers.length_eq
    simp at this
    omega
  | [unit] =>
    have hmem : unit ∈ (ctx.units exps).units := by simp [hunits]
    have hmembers : unit.members.Perm (List.finRange exps.length) := by
      simpa [hunits] using hmembers
    refine ⟨unit, rfl, isCoherent_of_mem_units hmem, fun places => ?_⟩
    rw [SearchUnit.isOrder_iff_validWithin hmem]
    exact ⟨fun h => ⟨h.perm.trans hmembers, h.valid⟩, fun h => ⟨h.1.trans hmembers.symm, h.2⟩⟩
  | _ :: _ :: _ =>
    rw [hunits] at hle
    simp at hle

/-- The score of an arrangement is the one of its order. -/
theorem score_arrangeUnits (units : List (SearchUnit exps.length)) :
    (ctx.arrangeUnits exps units).score =
      ctx.score (Expression.inOrder exps (ctx.arrangeUnits exps units).order) := rfl

/-- Placing a single unit. -/
theorem arrangeUnits_singleton (unit : SearchUnit exps.length) :
    (ctx.arrangeUnits exps [unit]).order = (ctx.searchUnit unit).1 ∧
      ((ctx.arrangeUnits exps [unit]).mode ≠ .greedy →
        unit.members.length ≤ ctx.options.searchLimit) := by
  constructor
  · simp [arrangeUnits, placeUnits, placeUnit]
  · intro hmode
    by_contra hlimit
    simp [arrangeUnits, placeUnits, placeUnit, hlimit] at hmode

/-- Without a greedy unit the arrangement of a list that has a valid order is valid, none of its
valid orders scores more, and it is the lexicographically least one of its score. -/
theorem arrange_optimal {a : Arrangement} (h : ctx.arrange exps = .ok a) (hmode : a.mode ≠ .greedy)
    (hvalid : ∃ order, ctx.ValidOrder exps order) :
    ctx.ValidOrder exps a.order ∧ a.score = ctx.score (Expression.inOrder exps a.order) ∧
      ∀ other, ctx.ValidOrder exps other →
        ctx.score (Expression.inOrder exps other) ≤ a.score ∧
          (ctx.score (Expression.inOrder exps other) = a.score → other ≠ a.order →
            List.Lex (· < ·) a.order other) := by
  rcases arrange_cases h with ⟨hle, rfl⟩ | ⟨hlt, rfl⟩
  · have hexps := Expression.inOrder_range exps
    have hunique {other : List ℕ} (hother : ctx.ValidOrder exps other) :
        other = List.range exps.length := by
      have hperm := hother.perm
      rcases Nat.le_one_iff_eq_zero_or_eq_one.1 hle with hlength | hlength
      · simpa [hlength] using hperm
      · simpa [hlength] using hperm
    have horder : (ctx.arrangeTrivially exps).order = List.range exps.length := rfl
    have hscore : (ctx.arrangeTrivially exps).score = ctx.score exps := rfl
    rw [horder, hscore, hexps]
    obtain ⟨order, hordered⟩ := hvalid
    refine ⟨hunique hordered ▸ hordered, rfl, fun other hother => ?_⟩
    rw [hunique hother, hexps]
    exact ⟨le_rfl, fun _ hne => absurd rfl hne⟩
  · obtain ⟨unit, hunits, hcoherent, horders⟩ := exists_unit_of_validOrder hlt hvalid
    rw [hunits] at hmode ⊢
    obtain ⟨horder, hlimit⟩ := arrangeUnits_singleton unit
    obtain ⟨places, hplaces, hfound, hbest⟩ := searchUnit_optimal hcoherent (hlimit hmode)
    obtain ⟨hperm, hsequence⟩ := (horders places).1 hplaces
    have hscore : (ctx.arrangeUnits exps [unit]).score = ctx.score (places.map exps.get) := by
      rw [score_arrangeUnits, horder, hfound, Expression.inOrder_map_val]
    rw [horder, hfound, hscore, Expression.inOrder_map_val]
    refine ⟨validOrder_map_val hperm hsequence, rfl, fun other hother => ?_⟩
    obtain ⟨others, rfl, hotherPerm, hotherValid⟩ := hother.exists_fin
    obtain ⟨hle, htie⟩ := hbest others ((horders others).2 ⟨hotherPerm, hotherValid⟩)
    rw [Expression.inOrder_map_val]
    exact ⟨hle, fun heq hne => (htie heq).resolve_left fun hsame => hne (hsame ▸ rfl)⟩

/-- The best order of a chain whose last alias is constrained starts in its middle. -/
theorem arrange_optimal_chain :
    let exps : List Expression :=
      [.hop ⟨"a"⟩ ⟨"b"⟩ none none, .hop ⟨"b"⟩ ⟨"c"⟩ (some "R") none, .labelScan ⟨"c"⟩ "L"]
    let pattern := (Pattern.ofDeclarations
      [.node ⟨"a"⟩ [], .node ⟨"b"⟩ [], .node ⟨"c"⟩ []]).toOption.getD .empty
    let ctx : Context := ⟨pattern, .ofList [(⟨"c"⟩ : Alias)], ∅, .default⟩
    ∃ a, ctx.arrange exps = .ok a ∧ a.mode = .exhaustive ∧ a.order = [1, 2, 0] ∧
      ∀ other, ctx.ValidOrder exps other →
        ctx.score (Expression.inOrder exps other) ≤ 6 ∧
          (ctx.score (Expression.inOrder exps other) = 6 → other ≠ [1, 2, 0] →
            List.Lex (· < ·) [1, 2, 0] other) := by
  intro exps pattern ctx
  have harrange : ctx.arrange exps =
      .ok ⟨[1, 2, 0], 6, [0], .exhaustive, ⟨1, 4, 0, 0⟩, true⟩ := by decide +kernel
  have hvalid : ctx.ValidOrder exps [1, 2, 0] := by
    refine ⟨by decide, fun p hp => ?_⟩
    revert p
    decide +kernel
  obtain ⟨-, -, hbest⟩ := arrange_optimal harrange (by decide) ⟨_, hvalid⟩
  exact ⟨_, harrange, rfl, rfl, hbest⟩

end Context

end PatternTraversal
