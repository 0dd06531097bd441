import Mathlib.Data.Prod.Lex
import PatternTraversal.Proofs.Arrangement.Splitting

/-!
# Ranking of the units

Every component becomes a unit of its own, except those that touch a resolved alias: they share the
first unit and take in the best ranked one of the others, which opens it. The components that touch
a constrained alias rank before the others, and among equals the one with the earlier first member.
The components are listed by their first members, so dealing them out to two lists sorts them by
rank.
-/

namespace PatternTraversal

namespace Context

variable {ctx : Context} {exps : List Expression}

/-- What a component ranks by: whether it touches no constrained alias, then its first member. -/
def rankKey (ctx : Context) (component : List (Fin exps.length)) :
    Bool × Option (Fin exps.length) :=
  (!Units.touches (Expression.entitiesAt exps) ctx.isFiltered component, component.head?)

/-- A component ranks before another one. -/
def RanksBefore (ctx : Context) (one two : List (Fin exps.length)) : Prop :=
  Prod.Lex (· < ·) (· < ·) (ctx.rankKey one) (ctx.rankKey two)

/-- Only the members of one kind are compared by their first members. -/
theorem ranksBefore_iff (one two : List (Fin exps.length)) :
    ctx.RanksBefore one two ↔
      (ctx.rankKey one).1 < (ctx.rankKey two).1 ∨
        (ctx.rankKey one).1 = (ctx.rankKey two).1 ∧ one.head? < two.head? :=
  Prod.lex_def

/-- The ranked components are in the order of their ranks. -/
theorem pairwise_rankedComponents (ctx : Context) (exps : List Expression) :
    (ctx.rankedComponents exps).Pairwise ctx.RanksBefore := by
  have hfree : (ctx.freeComponents exps).Pairwise fun one two => one.head? < two.head? :=
    (pairwise_head?_partition exps).filter _
  have hkind (kind : List (Fin exps.length) → Bool)
      (hsame : ∀ one two, kind one = true → kind two = true →
        (ctx.rankKey one).1 = (ctx.rankKey two).1) :
      ((ctx.freeComponents exps).filter kind).Pairwise ctx.RanksBefore := by
    refine (hfree.filter kind).imp_of_mem fun {one two} hone htwo hlt => ?_
    exact (ranksBefore_iff one two).2
      (.inr ⟨hsame one two (List.mem_filter.1 hone).2 (List.mem_filter.1 htwo).2, hlt⟩)
  rw [rankedComponents, List.pairwise_append]
  -- components of one kind compare by their first members, those of two kinds by their kinds
  refine ⟨hkind _ ?_, hkind _ ?_, ?_⟩
  · intro one two hone htwo
    simp [rankKey, hone, htwo]
  · intro one two hone htwo
    simp_all [rankKey]
  · intro one hone two htwo
    refine (ranksBefore_iff one two).2 (.inl ?_)
    simp_all [rankKey]

/-- What a component ranks by, as a key to sort by; an empty component has the one of a component
that starts at zero. -/
def rank (ctx : Context) (component : List (Fin exps.length)) : Bool ×ₗ ℕ :=
  toLex (!Units.touches (Expression.entitiesAt exps) ctx.isFiltered component,
    (component.head?.map Fin.val).getD 0)

/-- Whether a component does not rank behind another one. -/
def ranksLe (ctx : Context) (one two : List (Fin exps.length)) : Bool :=
  decide (ctx.rank one ≤ ctx.rank two)

/-- Components that rank one before the other have such ranks. -/
theorem RanksBefore.rank_lt {one two : List (Fin exps.length)} (h : ctx.RanksBefore one two)
    (hone : one ≠ []) (htwo : two ≠ []) : ctx.rank one < ctx.rank two := by
  obtain ⟨i, rest, rfl⟩ := List.exists_cons_of_ne_nil hone
  obtain ⟨j, others, rfl⟩ := List.exists_cons_of_ne_nil htwo
  rw [rank, rank, Prod.Lex.toLex_lt_toLex]
  simpa [ranksBefore_iff, rankKey] using h

/-- The ranked components are the components that touch no resolved alias, sorted by rank. -/
theorem rankedComponents_eq_mergeSort (ctx : Context) (exps : List Expression) :
    ctx.rankedComponents exps =
      (ctx.freeComponents exps).mergeSort ctx.ranksLe := by
  have hperm := ctx.rankedComponents_perm exps
  have hnonempty : ∀ component ∈ ctx.rankedComponents exps, component ≠ [] := fun component hmem =>
    (isPartitionBy_partition exps).nonempty _ (List.mem_filter.1 (hperm.subset hmem)).1
  have hranked : (ctx.rankedComponents exps).Pairwise fun one two => ctx.rank one < ctx.rank two :=
    (ctx.pairwise_rankedComponents exps).imp_of_mem fun hone htwo hbefore =>
      hbefore.rank_lt (hnonempty _ hone) (hnonempty _ htwo)
  have hsorted : ((ctx.freeComponents exps).mergeSort ctx.ranksLe).Pairwise
      fun one two => ctx.ranksLe one two = true := by
    refine List.pairwise_mergeSort (fun one two three h₁ h₂ => ?_) (fun one two => ?_) _
    · exact decide_eq_true (le_trans (of_decide_eq_true h₁) (of_decide_eq_true h₂))
    · simpa only [ranksLe, Bool.or_eq_true, decide_eq_true_eq] using le_total _ _
  have hsame := hperm.trans (List.mergeSort_perm (ctx.freeComponents exps) ctx.ranksLe).symm
  -- components of one rank are the same, since the ranks ascend
  have hnodup : ((ctx.rankedComponents exps).map ctx.rank).Nodup :=
    List.pairwise_map.2 (hranked.imp ne_of_lt)
  refine hsame.eq_of_pairwise (fun one two hone htwo hle hge => ?_)
    (hranked.imp fun hlt => decide_eq_true hlt.le) hsorted
  exact List.inj_on_of_nodup_map hnodup hone (hsame.symm.subset htwo)
    (le_antisymm (of_decide_eq_true hle) (of_decide_eq_true hge))

/-- Nothing ranks before itself. -/
theorem not_ranksBefore_self (component : List (Fin exps.length)) :
    ¬ctx.RanksBefore component component := by
  cases component <;> simp [ranksBefore_iff]

/-- Of the components that touch no resolved alias, the one that ranks before all others. -/
structure IsOpener (ctx : Context) (exps : List Expression) (component : List (Fin exps.length)) :
    Prop where
  mem : component ∈ ctx.freeComponents exps
  least : ∀ other ∈ ctx.freeComponents exps, other ≠ component → ctx.RanksBefore component other

/-- Units that are each one of some components, any member of which may come first, in the order of
their ranks. -/
structure AreRanked (ctx : Context) (exps : List Expression)
    (isListed : List (Fin exps.length) → Prop) (units : List (SearchUnit exps.length)) : Prop where
  mem_iff : ∀ component, component ∈ units.map SearchUnit.members ↔ isListed component
  entry_eq : ∀ unit ∈ units, unit.entry = []
  ranked : units.Pairwise fun one two => ctx.RanksBefore one.members two.members

/-- Components in the order of their ranks are ranked units when each one stays alone. -/
theorem areRanked_alone {components : List (List (Fin exps.length))}
    (hranked : components.Pairwise ctx.RanksBefore) {isListed : List (Fin exps.length) → Prop}
    (hmem : ∀ component, component ∈ components ↔ isListed component) :
    ctx.AreRanked exps isListed (components.map Units.alone) where
  mem_iff component := by
    rw [← hmem, List.map_map]
    simp [Function.comp_def, Units.alone]
  entry_eq unit hunit := by
    obtain ⟨component, -, rfl⟩ := List.mem_map.1 hunit
    rfl
  ranked := by
    rw [List.pairwise_map]
    exact hranked

/-- The free components are the ranked ones. -/
theorem mem_freeComponents_iff (component : List (Fin exps.length)) :
    component ∈ ctx.freeComponents exps ↔ component ∈ ctx.rankedComponents exps :=
  (ctx.rankedComponents_perm exps).mem_iff.symm

/-- Without components that touch a resolved alias all units are ranked components. -/
theorem areRanked_units (hanchored : ctx.anchoredComponents exps = []) :
    ctx.AreRanked exps (· ∈ ctx.freeComponents exps) (ctx.units exps).units := by
  rw [units_eq, if_pos hanchored]
  exact areRanked_alone (ctx.pairwise_rankedComponents exps) fun component =>
    (mem_freeComponents_iff component).symm

/-- The components that touch a resolved alias share the first unit with the opener, and the units
behind it are the other ranked components. -/
theorem exists_anchored_unit (hanchored : ctx.anchoredComponents exps ≠ []) :
    ∃ unit rest, (ctx.units exps).units = unit :: rest ∧
      unit.members.Perm ((ctx.anchoredComponents exps).flatten ++ unit.entry) ∧
      ((ctx.units exps).unanchored = 0 → unit.entry = []) ∧
      (1 ≤ (ctx.units exps).unanchored → ctx.IsOpener exps unit.entry) ∧
      ctx.AreRanked exps (fun component =>
        component ∈ ctx.freeComponents exps ∧ component ≠ unit.entry) rest := by
  have hsorted := ctx.pairwise_rankedComponents exps
  rw [unanchored_eq, units_eq, if_neg hanchored]
  refine ⟨_, _, rfl, SearchUnit.anchoredUnit_members_perm _ _, ?_⟩
  cases hranked : ctx.rankedComponents exps with
  | nil =>
    refine ⟨fun _ => rfl, fun hpos => absurd hpos (by simp), areRanked_alone .nil ?_⟩
    simp [mem_freeComponents_iff, hranked]
  | cons opener others =>
    rw [hranked, List.pairwise_cons] at hsorted
    refine ⟨fun hzero => by simp at hzero, fun _ => ⟨?_, ?_⟩, areRanked_alone hsorted.2 ?_⟩
    · rw [mem_freeComponents_iff, hranked]
      exact List.mem_cons_self
    · intro other hother hne
      rw [mem_freeComponents_iff, hranked] at hother
      exact hsorted.1 other ((List.mem_cons.1 hother).resolve_left hne)
    · intro component
      rw [mem_freeComponents_iff, hranked]
      constructor
      · intro hmem
        refine ⟨List.mem_cons_of_mem _ hmem, ?_⟩
        -- the opener is not listed again, since it would rank before itself
        rintro rfl
        exact not_ranksBefore_self _ (hsorted.1 _ hmem)
      · intro ⟨hmem, hne⟩
        exact (List.mem_cons.1 hmem).resolve_left hne

/-- No unit is empty, each one is ascending, and together they hold every place once. The components
that touch no resolved alias are counted. If no component touches one, the units are the components
in the order of their ranks. Otherwise the first unit holds the components that touch one and, if
there is another component, the one that ranks before all others, which has to open the unit; the
units behind it are the remaining components in the order of their ranks. -/
theorem units_cover_ranked (ctx : Context) (exps : List Expression) :
    (∀ unit ∈ (ctx.units exps).units, unit.members ≠ [] ∧ unit.members.Pairwise (· < ·)) ∧
      ((ctx.units exps).units.flatMap SearchUnit.members).Perm (List.finRange exps.length) ∧
      (ctx.units exps).unanchored =
        {component | ctx.IsFreeComponent exps component}.ncard ∧
      (ctx.anchoredComponents exps = [] →
        ctx.AreRanked exps (· ∈ ctx.freeComponents exps) (ctx.units exps).units) ∧
      (ctx.anchoredComponents exps ≠ [] → ∃ unit rest, (ctx.units exps).units = unit :: rest ∧
        unit.members.Perm ((ctx.anchoredComponents exps).flatten ++ unit.entry) ∧
        ((ctx.units exps).unanchored = 0 → unit.entry = []) ∧
        (1 ≤ (ctx.units exps).unanchored → ctx.IsOpener exps unit.entry) ∧
        ctx.AreRanked exps (fun component =>
          component ∈ ctx.freeComponents exps ∧ component ≠ unit.entry) rest) := by
  refine ⟨fun unit hunit => ?_, units_members_perm ctx exps, (ncard_isFreeComponent ctx exps).symm,
    areRanked_units, exists_anchored_unit⟩
  have hcoherent := isCoherent_of_mem_units hunit
  exact ⟨hcoherent.nonempty, hcoherent.ascending⟩

/-- Two components touch a resolved alias; of the others the last one is constrained and opens. -/
theorem units_cover_ranked_of_bound :
    let exps : List Expression := [.hop ⟨"x"⟩ ⟨"y"⟩ none none, .hop ⟨"a"⟩ ⟨"b"⟩ none none,
      .labelScan ⟨"c"⟩ "L", .hop ⟨"u"⟩ ⟨"v"⟩ none none, .hop ⟨"b"⟩ ⟨"d"⟩ (some "R") none,
      .hop ⟨"m"⟩ ⟨"n"⟩ none none]
    let ctx : Context := ⟨.empty, .ofList [(⟨"n"⟩ : Alias)], .ofList [(⟨"b"⟩ : Alias), ⟨"v"⟩],
      .default⟩
    ctx.anchoredComponents exps ≠ [] ∧ 1 ≤ (ctx.units exps).unanchored ∧
      ctx.units exps = ⟨[⟨[1, 3, 4, 5], [5]⟩, ⟨[0], []⟩, ⟨[2], []⟩], 3⟩ ∧
      {component | ctx.IsFreeComponent exps component}.ncard = 3 ∧ ctx.IsOpener exps [5] ∧
      ctx.AreRanked exps (fun component =>
        component ∈ ctx.freeComponents exps ∧ component ≠ [5]) [⟨[0], []⟩, ⟨[2], []⟩] := by
  intro exps ctx
  have hanchored : ctx.anchoredComponents exps = [[1, 4], [3]] := by decide +kernel
  have hranked : ctx.rankedComponents exps = [[5], [0], [2]] := by decide +kernel
  have hunits : ctx.units exps = ⟨[⟨[1, 3, 4, 5], [5]⟩, ⟨[0], []⟩, ⟨[2], []⟩], 3⟩ := by
    simp [units_eq, hanchored, hranked, Units.anchoredUnit, Units.alone, List.mergeSort]
  have hne : ctx.anchoredComponents exps ≠ [] := by simp [hanchored]
  obtain ⟨-, -, hcount, -, hfirst⟩ := units_cover_ranked ctx exps
  obtain ⟨unit, rest, heq, -, -, hopener, hrest⟩ := hfirst hne
  rw [hunits] at hcount heq hopener
  obtain ⟨rfl, rfl⟩ := List.cons.inj heq
  exact ⟨hne, by simp [hunits], hunits, hcount.symm, hopener (by decide), hrest⟩

end Context

end PatternTraversal
