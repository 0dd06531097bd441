import Mathlib.Data.List.Permutation
import PatternTraversal.Proofs.Arrangement.Segments

/-!
# Counting the valid orders

The complete search of a unit goes through the members in ascending order at every place, so it
meets the orders of the unit in lexicographic order and none of them twice. That a unit may be
entered by some members only is no restriction, since its valid orders start with one of these
anyway. So the number of orders the search scores is the number of valid permutations of the
members, and the units add up.
-/

namespace PatternTraversal

namespace Search

variable {n : ℕ} {members : List (Fin n)} {follows : List (Fin n) → Fin n → Bool}

/-- No completion is listed twice. -/
theorem nodup_completions (hascending : members.Pairwise (· < ·)) (remaining : ℕ)
    (placed : List (Fin n)) : (completions members follows remaining placed).Nodup :=
  (pairwise_completions hascending remaining placed).nodup

end Search

namespace Context

variable {ctx : Context} {exps : List Expression}

instance (ctx : Context) (sequence : List Expression) : Decidable (ctx.ValidSequence sequence) :=
  inferInstanceAs (Decidable (∀ p (hp : p < sequence.length),
    ctx.validNext (sequence.take p) sequence[p] = true))

/-- The permutations of some places in which each expression may follow those before it. -/
def validPermutations (ctx : Context) (exps : List Expression) (places : List (Fin exps.length)) :
    List (List (Fin exps.length)) :=
  places.permutations'.filter fun order => ctx.ValidSequence (order.map exps.get)

/-- The listed permutations are the valid ones. -/
theorem mem_validPermutations_iff (places order : List (Fin exps.length)) :
    order ∈ ctx.validPermutations exps places ↔
      order.Perm places ∧ ctx.ValidSequence (order.map exps.get) := by
  rw [validPermutations, List.mem_filter, List.mem_permutations', decide_eq_true_eq]

/-- Of places without duplicates no valid permutation is listed twice. -/
theorem nodup_validPermutations {places : List (Fin exps.length)} (h : places.Nodup) :
    (ctx.validPermutations exps places).Nodup := by
  have hpermutations : places.permutations'.Nodup :=
    (List.permutations_perm_permutations' places).nodup_iff.1 (List.nodup_permutations places h)
  exact hpermutations.filter _

-- three hops in a row: two of the six orders would leave a gap
example :
    let exps : List Expression := [.hop ⟨"a"⟩ ⟨"b"⟩ none none, .hop ⟨"b"⟩ ⟨"c"⟩ none none,
      .hop ⟨"c"⟩ ⟨"d"⟩ none none]
    validPermutations ⟨.empty, ∅, ∅, .default⟩ exps [0, 1, 2] =
      [[0, 1, 2], [1, 0, 2], [1, 2, 0], [2, 1, 0]] := by decide +kernel

/-- The complete search of a unit comes to each valid permutation of the members once. -/
theorem completions_perm_validPermutations {unit : SearchUnit exps.length}
    (hunit : unit ∈ (ctx.units exps).units) :
    (unit.completions ctx unit.members.length []).Perm
      (ctx.validPermutations exps unit.members) := by
  have hcoherent := isCoherent_of_mem_units hunit
  refine (List.perm_ext_iff_of_nodup (Search.nodup_completions hcoherent.ascending _ _)
    (nodup_validPermutations hcoherent.nodup)).2 fun order => ?_
  -- the search keeps to the members that may open the unit, which excludes no valid order
  rw [SearchUnit.mem_completions_iff_isOrder hcoherent.nodup,
    SearchUnit.isOrder_iff_validWithin hunit, mem_validPermutations_iff]
  exact ⟨fun h => ⟨h.perm, h.valid⟩, fun h => ⟨h.1, h.2⟩⟩

/-- The complete search of a unit scores as many orders as the members have valid permutations. -/
theorem scored_searchUnit {unit : SearchUnit exps.length} (hunit : unit ∈ (ctx.units exps).units)
    (hlimit : unit.members.length ≤ ctx.options.searchLimit) :
    (ctx.searchUnit unit).2.scored = (ctx.validPermutations exps unit.members).length := by
  obtain ⟨best, -, hsearch⟩ := searchUnit_of_le (isCoherent_of_mem_units hunit) hlimit
  rw [hsearch]
  exact (completions_perm_validPermutations hunit).length_eq

/-- The orders scored for the units add up. -/
theorem scored_foldl_placeUnit (placement : Placement) (units : List (SearchUnit exps.length)) :
    (units.foldl ctx.placeUnit placement).scored =
      placement.scored + (units.map fun unit => (ctx.searchUnit unit).2.scored).sum := by
  induction units generalizing placement with
  | nil => simp
  | cons unit rest ih => simp [ih, placeUnit, Nat.add_assoc]

/-- The members of a single unit are all places. -/
theorem members_eq_finRange_of_single {unit : SearchUnit exps.length}
    (hunits : (ctx.units exps).units = [unit]) : unit.members = List.finRange exps.length := by
  have hcoherent : unit.IsCoherent ctx := isCoherent_of_mem_units (by simp [hunits])
  have hmembers : unit.members.Perm (List.finRange exps.length) := by
    simpa [hunits] using units_members_perm ctx exps
  exact hmembers.eq_of_pairwise' hcoherent.ascending (List.pairwise_lt_finRange _)

/-- When every unit is searched completely, the number of orders scored is the sum over the units of
the numbers of permutations of their members in which each member may follow those before it. For a
single unit it is the number of such permutations of the whole list. -/
theorem arrange_scored_eq_sum {a : Arrangement} (h : ctx.arrange exps = .ok a)
    (hmode : a.mode = .exhaustive) :
    a.stats.scored =
        ((ctx.units exps).units.map fun unit =>
          (ctx.validPermutations exps unit.members).length).sum ∧
      ∀ unit, (ctx.units exps).units = [unit] →
        a.stats.scored = (ctx.validPermutations exps (List.finRange exps.length)).length := by
  have hsum : a.stats.scored = ((ctx.units exps).units.map fun unit =>
      (ctx.validPermutations exps unit.members).length).sum := by
    rcases arrange_cases h with ⟨-, rfl⟩ | ⟨-, rfl⟩
    · cases hmode
    · have hlimit := length_members_le_of_mode hmode
      calc (ctx.arrangeUnits exps (ctx.units exps).units).stats.scored
          = ((ctx.units exps).units.map fun unit => (ctx.searchUnit unit).2.scored).sum :=
            (scored_foldl_placeUnit _ _).trans (Nat.zero_add _)
        _ = ((ctx.units exps).units.map fun unit =>
              (ctx.validPermutations exps unit.members).length).sum :=
            congrArg List.sum (List.map_congr_left fun unit hunit =>
              scored_searchUnit hunit (hlimit unit hunit))
  refine ⟨hsum, fun unit hunits => ?_⟩
  rw [hsum, hunits, List.map_singleton, List.sum_singleton, members_eq_finRange_of_single hunits]

/-- Three hops in a row, two of which touch a resolved alias, and a scan apart from them: the scan
has to open, and the third hop waits for the second one. -/
theorem arrange_scored_eq_sum_of_bound :
    let exps : List Expression := [.hop ⟨"a"⟩ ⟨"b"⟩ none none, .hop ⟨"b"⟩ ⟨"c"⟩ none none,
      .hop ⟨"c"⟩ ⟨"d"⟩ none none, .labelScan ⟨"x"⟩ "L"]
    let pattern := (Pattern.ofDeclarations [.node ⟨"a"⟩ [], .node ⟨"b"⟩ [], .node ⟨"c"⟩ [],
      .node ⟨"d"⟩ [], .node ⟨"x"⟩ []]).toOption.getD .empty
    let ctx : Context := ⟨pattern, ∅, .ofList [(⟨"b"⟩ : Alias)], .default⟩
    ∃ a, ctx.arrange exps = .ok a ∧ a.mode = .exhaustive ∧
      (ctx.units exps).units = [⟨[0, 1, 2, 3], [3]⟩] ∧ a.stats.scored = 3 ∧
      (ctx.validPermutations exps (List.finRange 4)).length = 3 := by
  intro exps pattern ctx
  have hanchored : ctx.anchoredComponents exps = [[0, 1, 2]] := by decide +kernel
  have hranked : ctx.rankedComponents exps = [[3]] := by decide +kernel
  have hunits : ctx.units exps = ⟨[⟨[0, 1, 2, 3], [3]⟩], 1⟩ := by
    simp [units_eq, hanchored, hranked, Units.anchoredUnit, List.mergeSort]
  have harrange : ctx.arrange exps =
      .ok ⟨[3, 0, 1, 2], 6, [0], .exhaustive, ⟨1, 3, 0, 0⟩, true⟩ := by
    rw [arrange, hunits]
    decide +kernel
  have hsingle : (ctx.units exps).units = [⟨[0, 1, 2, 3], [3]⟩] := by rw [hunits]
  exact ⟨_, harrange, rfl, hsingle, rfl, ((arrange_scored_eq_sum harrange rfl).2 _ hsingle).symm⟩

end Context

end PatternTraversal
