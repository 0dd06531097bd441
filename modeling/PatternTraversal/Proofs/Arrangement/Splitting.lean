import Mathlib.Data.Set.Card
import PatternTraversal.Proofs.Arrangement.Declared
import PatternTraversal.Proofs.Arrangement.Optimality

/-!
# Splitting exactly when forced

A list has a valid order exactly when at most one of its components touches no resolved alias. Then
the option to split its pieces changes nothing. Otherwise splitting leads to an arrangement with a
further piece, and refusing to split leads to the number of components in the way.
-/

namespace PatternTraversal

open Components (Linked)

namespace Context

/-- The context under which disconnected pieces are split, or refused. -/
def splitting (ctx : Context) (split : Bool) : Context :=
  { ctx with options := { ctx.options with splitComponents := split } }

/-- What an ordering in words of 64 bits answers: nothing when a sum on the way leaves their
range. -/
def answer? (ctx : Context) (exps : List Expression) : Option (Except PlanError Arrangement) :=
  match ctx.arrange exps with
  | .error error => some (.error error)
  | .ok a => if a.scoresFit then some (.ok a) else none

/-- The places linked to some place, when none of them touches a resolved alias. -/
def IsFreeComponent (ctx : Context) (exps : List Expression) (component : Set (Fin exps.length)) :
    Prop :=
  (∃ i, component = {j | Linked (Expression.entitiesAt exps) i j}) ∧
    ∀ j ∈ component, ctx.anchors (exps.get j) = false

variable {ctx : Context} {exps : List Expression}

/-! ## Counting components -/

/-- The count of the units is the one of the ranked components. -/
theorem unanchored_eq (ctx : Context) (exps : List Expression) :
    (ctx.units exps).unanchored = (ctx.rankedComponents exps).length := by
  rw [units_eq]

/-- The ranked components are the components that touch no resolved alias. -/
theorem isFreeComponent_iff (component : Set (Fin exps.length)) :
    ctx.IsFreeComponent exps component ↔
      ∃ members ∈ ctx.rankedComponents exps, {i | i ∈ members} = component := by
  have hpart := isPartitionBy_partition exps
  constructor
  · intro ⟨⟨i, hi⟩, hfree⟩
    obtain ⟨members, hmembers, hmem⟩ :=
      List.mem_flatten.1 (hpart.perm.mem_iff.2 (List.mem_finRange i))
    have heq : {j | j ∈ members} = component := by
      rw [hi]
      ext j
      exact hpart.mem_iff members hmembers i hmem j
    refine ⟨members, (mem_rankedComponents_iff members).2 ⟨hmembers, ?_⟩, heq⟩
    intro j hj
    apply hfree
    rwa [← heq]
  · intro ⟨members, hmembers, heq⟩
    obtain ⟨hmem, hfree⟩ := (mem_rankedComponents_iff members).1 hmembers
    obtain ⟨i, hi⟩ := List.exists_mem_of_ne_nil members (hpart.nonempty members hmem)
    rw [← heq]
    refine ⟨⟨i, ?_⟩, hfree⟩
    ext j
    exact hpart.mem_iff members hmem i hi j

/-- The count of the units is the number of components that touch no resolved alias. -/
theorem ncard_isFreeComponent (ctx : Context) (exps : List Expression) :
    {component | ctx.IsFreeComponent exps component}.ncard = (ctx.units exps).unanchored := by
  have hpart := isPartitionBy_partition exps
  have hnodup : (ctx.rankedComponents exps).Nodup :=
    (ctx.rankedComponents_perm exps).nodup_iff.2 (hpart.nodup.filter _)
  let ranked : Finset (List (Fin exps.length)) := (ctx.rankedComponents exps).toFinset
  let placesOf (members : List (Fin exps.length)) : Set (Fin exps.length) := {i | i ∈ members}
  have himage : {component | ctx.IsFreeComponent exps component} = Set.image placesOf ranked := by
    ext component
    simp [isFreeComponent_iff, ranked, placesOf]
  have hmem {members : List (Fin exps.length)} (h : members ∈ (ranked : Set _)) :
      members ∈ partition exps :=
    ((mem_rankedComponents_iff members).1 (by simpa [ranked] using h)).1
  have hinj : Set.InjOn placesOf ranked := by
    intro one hone two htwo heq
    exact (hpart.ascending one (hmem hone)).eq_of_mem_iff (hpart.ascending two (hmem htwo))
      fun i => Set.ext_iff.1 heq i
  rw [himage, hinj.ncard_image, Set.ncard_coe_finset, List.toFinset_card_of_nodup hnodup,
    unanchored_eq]

/-! ## Valid orders -/

/-- At most one expression is in a valid order. -/
theorem validOrder_range (hle : exps.length ≤ 1) :
    ctx.ValidOrder exps (List.range exps.length) := by
  refine ⟨.refl _, ?_⟩
  rw [Expression.inOrder_range]
  intro p hp
  obtain rfl : p = 0 := by omega
  exact ctx.validNext_nil _

/-- A list has a valid order exactly when at most one of its components touches no resolved
alias. -/
theorem exists_validOrder_iff :
    (∃ order, ctx.ValidOrder exps order) ↔ (ctx.units exps).unanchored ≤ 1 := by
  constructor
  · intro ⟨order, horder⟩
    obtain ⟨places, -, hperm, hvalid⟩ := horder.exists_fin
    exact unanchored_le_one hperm hvalid
  · intro hle
    have hlength := ctx.length_units_le exps
    have hmembers := units_members_perm ctx exps
    match hunits : (ctx.units exps).units with
    | [] =>
      have hzero : exps.length = 0 := by simpa [hunits] using hmembers.length_eq.symm
      exact ⟨_, validOrder_range (by omega)⟩
    | [unit] =>
      obtain ⟨places, hplaces, -⟩ := searchUnit_isOrder
        (isCoherent_of_mem_units (show unit ∈ (ctx.units exps).units by simp [hunits]))
      have hperm : places.Perm (List.finRange exps.length) :=
        hplaces.perm.trans (by simpa [hunits] using hmembers)
      exact ⟨_, validOrder_map_val hperm hplaces.valid⟩
    | _ :: _ :: _ =>
      rw [hunits] at hlength
      simp only [List.length_cons] at hlength
      omega

/-- There are as many units as components that touch no resolved alias, or one more. -/
theorem unanchored_le_length_units (ctx : Context) (exps : List Expression) :
    (ctx.units exps).unanchored ≤ (ctx.units exps).units.length := by
  rw [units_eq]
  dsimp only
  split
  · simp
  · simp only [List.length_cons, List.length_map, List.length_tail]
    omega

/-! ## Pieces -/

/-- Every unit starts a piece. -/
theorem length_roots_foldl_placeUnit (placement : Placement)
    (units : List (SearchUnit exps.length)) :
    (units.foldl ctx.placeUnit placement).roots.length =
      placement.roots.length + units.length := by
  induction units generalizing placement with
  | nil => rfl
  | cons unit rest ih =>
    rw [List.foldl_cons, ih]
    simp only [placeUnit, List.length_append, List.length_cons, List.length_nil]
    omega

/-- An arrangement has more than one piece exactly when the list has no valid order. -/
theorem one_lt_length_roots_iff {a : Arrangement} (h : ctx.arrange exps = .ok a) :
    1 < a.roots.length ↔ ¬∃ order, ctx.ValidOrder exps order := by
  rcases arrange_cases h with ⟨hle, rfl⟩ | ⟨-, rfl⟩
  · have hroots : (ctx.arrangeTrivially exps).roots.length ≤ 1 := by simp [arrangeTrivially]
    exact iff_of_false (by omega) (not_not.2 ⟨_, validOrder_range hle⟩)
  · have hroots : (ctx.arrangeUnits exps (ctx.units exps).units).roots.length =
        (ctx.units exps).units.length := by
      simp [arrangeUnits, placeUnits, length_roots_foldl_placeUnit]
    have hle := ctx.length_units_le exps
    have hge := ctx.unanchored_le_length_units exps
    rw [hroots, exists_validOrder_iff]
    omega

/-! ## Answers -/

/-- An answer that refuses the list is the refusal itself. -/
theorem answer?_eq_error_iff (error : PlanError) :
    ctx.answer? exps = some (.error error) ↔ ctx.arrange exps = .error error := by
  unfold answer?
  cases ctx.arrange exps with
  | error found => simp
  | ok a =>
    dsimp only
    split <;> simp

/-- An answer with an arrangement is the arrangement, when all sums fit. -/
theorem answer?_eq_ok_iff (a : Arrangement) :
    ctx.answer? exps = some (.ok a) ↔ ctx.arrange exps = .ok a ∧ a.scoresFit = true := by
  unfold answer?
  cases ctx.arrange exps with
  | error found => simp
  | ok found =>
    dsimp only
    split <;> grind

/-- There is no answer when some sum on the way to the arrangement leaves the range of a word. -/
theorem answer?_eq_none_iff :
    ctx.answer? exps = none ↔ ∃ a, ctx.arrange exps = .ok a ∧ a.scoresFit = false := by
  unfold answer?
  cases ctx.arrange exps with
  | error found => simp
  | ok found =>
    dsimp only
    split <;> simp_all

/-- An undeclared alias is refused before anything else is looked at. -/
theorem arrange_eq_unknownAlias_iff (ident : Alias) (role : Role) :
    ctx.arrange exps = .error (.unknownAlias ident role) ↔
      ctx.FirstUndeclared exps ident role := by
  rw [← check_eq_error_iff]
  unfold arrange
  cases ctx.check exps with
  | error error => simp
  | ok =>
    dsimp only
    split
    · simp
    · split <;> simp

/-- Splitting or refusing is no matter of validity. -/
theorem validOrder_splitting_iff (split : Bool) (order : List ℕ) :
    (ctx.splitting split).ValidOrder exps order ↔ ctx.ValidOrder exps order :=
  ⟨fun h => ⟨h.perm, h.valid⟩, fun h => ⟨h.perm, h.valid⟩⟩

/-- Contexts under which single expressions gain alike score orders alike. -/
theorem gainsFrom_congr {other : Context}
    (h : ∀ (weight : ℕ) e, other.gain weight e = ctx.gain weight e) (remaining : ℕ)
    (sequence : List Expression) :
    other.gainsFrom remaining sequence = ctx.gainsFrom remaining sequence := by
  induction sequence generalizing remaining with
  | nil => rfl
  | cons e rest ih => rw [gainsFrom, gainsFrom, h, ih]

/-- Splitting or refusing is no matter of scores. -/
theorem gainsFrom_splitting (split : Bool) (remaining : ℕ) (sequence : List Expression) :
    (ctx.splitting split).gainsFrom remaining sequence = ctx.gainsFrom remaining sequence := by
  apply gainsFrom_congr
  intro weight e
  rfl

/-- The list that is left as it is stays so. -/
theorem arrangeTrivially_splitting (split : Bool) :
    (ctx.splitting split).arrangeTrivially exps = ctx.arrangeTrivially exps := by
  simp only [arrangeTrivially, score, gains, gainsFrom_splitting]

/-- The order of the units is the same. -/
theorem arrangeUnits_splitting (split : Bool) (units : List (SearchUnit exps.length)) :
    (ctx.splitting split).arrangeUnits exps units = ctx.arrangeUnits exps units := by
  simp only [arrangeUnits, score, gains, gainsFrom_splitting]
  rfl

/-- The option is looked at only when the list has more than one piece. -/
theorem arrange_splitting (hdeclared : ctx.DeclaresAll exps) (split : Bool) :
    (ctx.splitting split).arrange exps =
      if exps.length ≤ 1 then .ok (ctx.arrangeTrivially exps)
      else if (ctx.units exps).unanchored > 1 ∧ split = false then
        .error (.disconnectedPattern (ctx.units exps).unanchored)
      else .ok (ctx.arrangeUnits exps (ctx.units exps).units) := by
  have hcheck : (ctx.splitting split).check exps = .ok () := (check_eq_ok_iff exps).2 hdeclared
  unfold arrange
  rw [hcheck]
  simp only [arrangeTrivially_splitting, arrangeUnits_splitting]
  rfl

/-- When all aliases are declared, splitting finds an arrangement. Refusing leads to the same one if
the list has a valid order, and counts the pieces otherwise. -/
theorem exists_arrange_splitting (hdeclared : ctx.DeclaresAll exps) :
    ∃ a, (ctx.splitting true).arrange exps = .ok a ∧
      ((∃ order, ctx.ValidOrder exps order) → (ctx.splitting false).arrange exps = .ok a) ∧
      ((¬∃ order, ctx.ValidOrder exps order) → (ctx.splitting false).arrange exps =
        .error (.disconnectedPattern (ctx.units exps).unanchored)) := by
  simp only [arrange_splitting hdeclared]
  by_cases hle : exps.length ≤ 1
  · refine ⟨_, if_pos hle, fun _ => if_pos hle, fun hnone => ?_⟩
    exact absurd ⟨_, validOrder_range hle⟩ hnone
  · rw [exists_validOrder_iff]
    refine ⟨ctx.arrangeUnits exps (ctx.units exps).units, ?_, fun hone => ?_, fun hmany => ?_⟩
    · simp [hle]
    · rw [if_neg hle, if_neg (by omega)]
    · simp [hle, Nat.lt_of_not_le hmany]

/-- An undeclared alias is refused before anything else, the first one being named. With all aliases
declared there is an arrangement, which has more than one piece exactly when the list has no valid
order. It is answered as long as every sum on the way fits a word. Without splitting the answer is
the same for a list with a valid order, and the number of components that touch no resolved alias
for every other list. -/
theorem splits_exactly_when_forced (ctx : Context) (exps : List Expression) :
    (∀ ident role, ctx.answer? exps = some (.error (.unknownAlias ident role)) ↔
      ctx.FirstUndeclared exps ident role) ∧
    ((∃ ident role, ctx.FirstUndeclared exps ident role) ↔ ¬ctx.DeclaresAll exps) ∧
    (ctx.DeclaresAll exps →
      (∀ count, (ctx.splitting false).answer? exps = some (.error (.disconnectedPattern count)) ↔
        (¬∃ order, ctx.ValidOrder exps order) ∧ 2 ≤ count ∧
          count = {component | ctx.IsFreeComponent exps component}.ncard) ∧
      ((∃ count, (ctx.splitting false).answer? exps = some (.error (.disconnectedPattern count))) ↔
        ¬∃ order, ctx.ValidOrder exps order) ∧
      ∃ a, (ctx.splitting true).arrange exps = .ok a ∧
        (1 < a.roots.length ↔ ¬∃ order, ctx.ValidOrder exps order) ∧
        (∀ answer, (ctx.splitting true).answer? exps = some answer ↔
          answer = .ok a ∧ a.scoresFit = true) ∧
        ∀ b, (ctx.splitting false).answer? exps = some (.ok b) ↔
          (∃ order, ctx.ValidOrder exps order) ∧ b = a ∧ a.scoresFit = true) := by
  refine ⟨?_, exists_firstUndeclared_iff exps, ?_⟩
  · intro ident role
    rw [answer?_eq_error_iff, arrange_eq_unknownAlias_iff]
  · intro hdeclared
    obtain ⟨a, hsplit, hvalid, hnone⟩ := exists_arrange_splitting hdeclared
    have hcount (count : ℕ) :
        (ctx.splitting false).answer? exps = some (.error (.disconnectedPattern count)) ↔
          (¬∃ order, ctx.ValidOrder exps order) ∧ count = (ctx.units exps).unanchored := by
      rw [answer?_eq_error_iff]
      by_cases h : ∃ order, ctx.ValidOrder exps order
      · simp [hvalid h, h]
      · simp [hnone h, h, eq_comm]
    have hmany : (¬∃ order, ctx.ValidOrder exps order) → 2 ≤ (ctx.units exps).unanchored := by
      rw [exists_validOrder_iff]
      omega
    refine ⟨?_, ?_, a, hsplit, ?_, ?_, ?_⟩
    · intro count
      rw [hcount, ncard_isFreeComponent]
      grind
    · simp [hcount]
    · rw [one_lt_length_roots_iff hsplit]
      simp only [validOrder_splitting_iff]
    · intro answer
      cases answer with
      | error error => simp [answer?_eq_error_iff, hsplit]
      | ok b => rw [answer?_eq_ok_iff, hsplit]; grind
    · intro b
      rw [answer?_eq_ok_iff]
      by_cases h : ∃ order, ctx.ValidOrder exps order
      · rw [hvalid h]; grind
      · simp [hnone h, h]

/-- Two pieces are counted or split. -/
theorem splits_exactly_when_forced_two_pieces :
    let exps : List Expression := [.hop ⟨"a"⟩ ⟨"b"⟩ none none, .labelScan ⟨"c"⟩ "L"]
    let pattern := (Pattern.ofDeclarations
      [.node ⟨"a"⟩ [], .node ⟨"b"⟩ [], .node ⟨"c"⟩ []]).toOption.getD .empty
    let ctx : Context := ⟨pattern, ∅, ∅, .default⟩
    (ctx.splitting false).answer? exps = some (.error (.disconnectedPattern 2)) ∧
      (¬∃ order, ctx.ValidOrder exps order) ∧
      {component | ctx.IsFreeComponent exps component}.ncard = 2 ∧
      ∃ a, (ctx.splitting true).answer? exps = some (.ok a) ∧ 1 < a.roots.length := by
  intro exps pattern ctx
  have hdeclared : ctx.DeclaresAll exps := (check_eq_ok_iff exps).1 (by decide +kernel)
  have hrefused : (ctx.splitting false).answer? exps = some (.error (.disconnectedPattern 2)) := by
    decide +kernel
  obtain ⟨-, -, hcases⟩ := splits_exactly_when_forced ctx exps
  obtain ⟨hcount, -, a, hsplit, hroots, hanswer, -⟩ := hcases hdeclared
  obtain ⟨hnone, -, htwo⟩ := (hcount 2).1 hrefused
  have ha : (ctx.splitting true).arrange exps =
      .ok ⟨[0, 1], 1, [0, 1], .exhaustive, ⟨2, 2, 0, 0⟩, true⟩ := by decide +kernel
  cases hsplit.symm.trans ha
  exact ⟨hrefused, hnone, htwo.symm, _, (hanswer _).2 ⟨rfl, rfl⟩, hroots.2 hnone⟩

/-- Two declared expressions with a valid order are not answered: with the largest bonus the sum of
their scores leaves the range of a word. -/
theorem answer?_of_largest_bonus :
    let exps : List Expression := [.labelScan ⟨"a"⟩ "L", .labelScan ⟨"a"⟩ "M"]
    let pattern := (Pattern.ofDeclarations [.node ⟨"a"⟩ []]).toOption.getD .empty
    let ctx : Context := ⟨pattern, ∅, ∅, ⟨8, 9223372036854775807, true⟩⟩
    ctx.DeclaresAll exps ∧ (∃ order, ctx.ValidOrder exps order) ∧ ctx.answer? exps = none := by
  intro exps pattern ctx
  refine ⟨(check_eq_ok_iff exps).1 ?_, exists_validOrder_iff.2 ?_, ?_⟩
  · decide +kernel
  · decide +kernel
  · decide +kernel

end Context

end PatternTraversal
