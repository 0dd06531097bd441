import Mathlib.Data.List.Nodup
import Mathlib.Data.List.Sort
import PatternTraversal.Arrangement.Units
import PatternTraversal.Proofs.Arrangement.Validity
import PatternTraversal.Proofs.Crossing

/-!
# Search units

The components are dealt out to the units, each one to exactly one. A unit can be ordered from
wherever its order may start: as long as a member is left over, some member may come next. Every
unit but the first one shares no alias with the others and touches no resolved one, and so does the
component that opens the first unit; hence a list with a valid order has one unit at most.
-/

namespace PatternTraversal

open Components (Linked Shares)

namespace Units

/-- The unit of one component. -/
def alone {n : ℕ} (members : List (Fin n)) : SearchUnit n := ⟨members, []⟩

end Units

namespace Context

variable (ctx : Context) (exps : List Expression)

/-- Components that touch a resolved alias. -/
def anchoredComponents : List (List (Fin exps.length)) :=
  (partition exps).filter (Units.touches (Expression.entitiesAt exps) ctx.isBound)

/-- Components that touch no resolved alias. -/
def freeComponents : List (List (Fin exps.length)) :=
  (partition exps).filter fun members =>
    !Units.touches (Expression.entitiesAt exps) ctx.isBound members

/-- Components that touch no resolved alias, those with a constrained alias first. -/
def rankedComponents : List (List (Fin exps.length)) :=
  (ctx.freeComponents exps).filter (Units.touches (Expression.entitiesAt exps) ctx.isFiltered) ++
    (ctx.freeComponents exps).filter fun members =>
      !Units.touches (Expression.entitiesAt exps) ctx.isFiltered members

/-- The units: with anchored components the first ranked one opens their unit, and the others stay
alone. -/
theorem units_eq :
    ctx.units exps =
      ⟨if ctx.anchoredComponents exps = [] then (ctx.rankedComponents exps).map Units.alone
        else
          Units.anchoredUnit (ctx.anchoredComponents exps) ((ctx.rankedComponents exps).headD []) ::
          (ctx.rankedComponents exps).tail.map Units.alone,
        (ctx.rankedComponents exps).length⟩ := by
  have hranked : (((ctx.freeComponents exps).partition
        (Units.touches (Expression.entitiesAt exps) ctx.isFiltered)).1 ++
      ((ctx.freeComponents exps).partition
        (Units.touches (Expression.entitiesAt exps) ctx.isFiltered)).2) =
      ctx.rankedComponents exps := by
    rw [List.partition_eq_filter_filter]
    rfl
  have hparts :
      (partition exps).partition (Units.touches (Expression.entitiesAt exps) ctx.isBound) =
        (ctx.anchoredComponents exps, ctx.freeComponents exps) := by
    rw [List.partition_eq_filter_filter]
    rfl
  simp only [units, Units.ofComponents, hparts, hranked]
  cases ctx.anchoredComponents exps <;> cases ctx.rankedComponents exps <;> rfl

/-- Ranking only reorders. -/
theorem rankedComponents_perm : (ctx.rankedComponents exps).Perm (ctx.freeComponents exps) :=
  List.filter_append_perm _ _

/-- Each component is anchored or ranked. -/
theorem anchored_append_ranked_perm :
    (ctx.anchoredComponents exps ++ ctx.rankedComponents exps).Perm (partition exps) :=
  ((List.Perm.refl _).append (ctx.rankedComponents_perm exps)).trans (List.filter_append_perm _ _)

/-- The anchored and the ranked components hold every place once. -/
theorem flatten_anchored_append_ranked_perm :
    ((ctx.anchoredComponents exps).flatten ++ (ctx.rankedComponents exps).flatten).Perm
      (List.finRange exps.length) := by
  rw [← List.flatten_append]
  exact (ctx.anchored_append_ranked_perm exps).flatten.trans (isPartitionBy_partition exps).perm

variable {ctx exps}

/-- An anchored component is a component with a member that touches a resolved alias. -/
theorem mem_anchoredComponents_iff (members : List (Fin exps.length)) :
    members ∈ ctx.anchoredComponents exps ↔
      members ∈ partition exps ∧ ∃ i ∈ members, ctx.anchors (exps.get i) = true := by
  simp [anchoredComponents, Units.touches, anchors, Expression.entitiesAt]

/-- A ranked component is a component of which no member touches a resolved alias. -/
theorem mem_rankedComponents_iff (members : List (Fin exps.length)) :
    members ∈ ctx.rankedComponents exps ↔
      members ∈ partition exps ∧ ∀ i ∈ members, ctx.anchors (exps.get i) = false := by
  rw [(ctx.rankedComponents_perm exps).mem_iff]
  simp only [freeComponents, List.mem_filter, Units.touches, anchors, Bool.not_eq_true',
    List.any_eq_false, Bool.not_eq_true]

/-- A component holds everything that is linked to one of its members. -/
theorem mem_of_linked {members : List (Fin exps.length)} (hmem : members ∈ partition exps)
    {i j : Fin exps.length} (hi : i ∈ members) (hij : Linked (Expression.entitiesAt exps) i j) :
    j ∈ members :=
  ((isPartitionBy_partition exps).mem_iff members hmem i hi j).2 hij

/-- Ranked components are free. -/
theorem isFree_of_mem_rankedComponents {members : List (Fin exps.length)}
    (hmem : members ∈ ctx.rankedComponents exps) : ctx.IsFree exps members := by
  obtain ⟨hpart, hfree⟩ := (mem_rankedComponents_iff members).1 hmem
  exact ⟨(isPartitionBy_partition exps).nonempty members hpart,
    fun i hi j hij => mem_of_linked hpart hi (.single hij), hfree⟩

end Context

namespace SearchUnit

variable {ctx : Context} {exps : List Expression}

/-- A unit that can be ordered completely from wherever its order may start: each member is linked
to one that touches a resolved alias, or to every member that may come first. -/
structure IsCoherent (ctx : Context) {exps : List Expression} (unit : SearchUnit exps.length) :
    Prop where
  nonempty : unit.members ≠ []
  ascending : unit.members.Pairwise (· < ·)
  closed : ∀ i ∈ unit.members, ∀ j, Linked (Expression.entitiesAt exps) i j → j ∈ unit.members
  entry_subset : unit.entry ⊆ unit.members
  reached : ∀ i ∈ unit.members,
    (∃ k, Linked (Expression.entitiesAt exps) k i ∧ ctx.anchors (exps.get k) = true) ∨
      ∀ first ∈ unit.members, unit.entry = [] ∨ first ∈ unit.entry →
        Linked (Expression.entitiesAt exps) first i

/-- A coherent unit holds each member once. -/
theorem IsCoherent.nodup {unit : SearchUnit exps.length} (h : unit.IsCoherent ctx) :
    unit.members.Nodup :=
  h.ascending.imp fun hlt => hlt.ne

/-- As long as a member is left over, one of those left over may come next. -/
theorem IsCoherent.exists_next {unit : SearchUnit exps.length} (h : unit.IsCoherent ctx)
    {placed : List (Fin exps.length)} (hsub : placed ⊆ unit.members) {first i : Fin exps.length}
    (hfirst : first ∈ placed) (hentry : unit.entry = [] ∨ first ∈ unit.entry)
    (hi : i ∈ unit.members) (hleft : i ∉ placed) :
    ∃ j ∈ unit.members, j ∉ placed ∧ ctx.validNext (placed.map exps.get) (exps.get j) = true := by
  have hcross {k : Fin exps.length} (hk : k ∈ placed)
      (hki : Linked (Expression.entitiesAt exps) k i) :
      ∃ j ∈ unit.members, j ∉ placed ∧
        ctx.validNext (placed.map exps.get) (exps.get j) = true := by
    obtain ⟨a, b, hka, hab, -, ha, hb⟩ := exists_crossing (· ∈ placed) hki hk hleft
    refine ⟨b, h.closed k (hsub hk) b (hka.tail hab), hb, ?_⟩
    exact (Context.validNext_get_iff placed b).2 (.inr (.inr ⟨a, ha, hab⟩))
  rcases h.reached i hi with ⟨k, hki, hanchor⟩ | hopen
  · by_cases hk : k ∈ placed
    · exact hcross hk hki
    · exact ⟨k, h.closed i hi k hki.symm, hk,
        (Context.validNext_get_iff placed k).2 (.inr (.inl hanchor))⟩
  · exact hcross hfirst (hopen first (hsub hfirst) hentry)

/-- A component alone is a coherent unit. -/
theorem isCoherent_alone {members : List (Fin exps.length)} (hmem : members ∈ partition exps) :
    (Units.alone members).IsCoherent ctx where
  nonempty := (isPartitionBy_partition exps).nonempty members hmem
  ascending := (isPartitionBy_partition exps).ascending members hmem
  closed _ hi _ hij := Context.mem_of_linked hmem hi hij
  entry_subset := List.nil_subset _
  reached i hi := .inr fun first hfirst _ =>
    ((isPartitionBy_partition exps).mem_iff members hmem first hfirst i).1 hi

/-- The members of the anchored unit are those of its components. -/
theorem anchoredUnit_members_perm {n : ℕ} (anchored : List (List (Fin n))) (opener : List (Fin n)) :
    (Units.anchoredUnit anchored opener).members.Perm (anchored.flatten ++ opener) :=
  List.mergeSort_perm _ _

/-- The component that opens the anchored unit, if there is one, is a component of the list. -/
theorem opener_mem_partition {i : Fin exps.length} (hi : i ∈ (ctx.rankedComponents exps).headD []) :
    (ctx.rankedComponents exps).headD [] ∈ partition exps := by
  cases hranked : ctx.rankedComponents exps with
  | nil => simp [hranked] at hi
  | cons members rest =>
    have hmem : members ∈ ctx.rankedComponents exps := by simp [hranked]
    exact ((Context.mem_rankedComponents_iff members).1 hmem).1

/-- The anchored components and the component that opens their unit have no member in common. -/
theorem nodup_anchored_append_opener (ctx : Context) (exps : List Expression) :
    ((ctx.anchoredComponents exps).flatten ++ (ctx.rankedComponents exps).headD []).Nodup := by
  refine ((ctx.flatten_anchored_append_ranked_perm exps).nodup_iff.2
    (List.nodup_finRange _)).sublist ((List.Sublist.refl _).append ?_)
  cases ctx.rankedComponents exps with
  | nil => simp
  | cons members rest => simp

/-- The anchored components and the component that opens their unit form a coherent unit. -/
theorem isCoherent_anchoredUnit (hne : ctx.anchoredComponents exps ≠ []) :
    (Units.anchoredUnit (ctx.anchoredComponents exps)
      ((ctx.rankedComponents exps).headD [])).IsCoherent ctx := by
  have hnodup := nodup_anchored_append_opener ctx exps
  have hopener {i : Fin exps.length} := @opener_mem_partition ctx exps i
  set anchored := ctx.anchoredComponents exps with hanchored
  set opener := (ctx.rankedComponents exps).headD []
  have hperm := anchoredUnit_members_perm anchored opener
  have hmem (i : Fin exps.length) :
      i ∈ (Units.anchoredUnit anchored opener).members ↔
        (∃ members ∈ anchored, i ∈ members) ∨ i ∈ opener := by
    rw [hperm.mem_iff, List.mem_append, List.mem_flatten]
  refine ⟨?_, ?_, ?_, fun i hi => (hmem i).2 (.inr hi), ?_⟩
  · obtain ⟨members, hmembers⟩ := List.exists_mem_of_ne_nil _ hne
    obtain ⟨_, i, hi, _⟩ := (Context.mem_anchoredComponents_iff members).1 hmembers
    exact List.ne_nil_of_mem ((hmem i).2 (.inl ⟨members, hmembers, hi⟩))
  · have hle : (Units.anchoredUnit anchored opener).members.Pairwise (· ≤ ·) :=
      List.pairwise_mergeSort' (· ≤ ·) (anchored.flatten ++ opener)
    exact (hle.and (hperm.nodup_iff.2 hnodup)).imp fun h => lt_of_le_of_ne h.1 h.2
  · intro i hi j hij
    rcases (hmem i).1 hi with ⟨members, hmembers, hi⟩ | hi
    · exact (hmem j).2 (.inl ⟨members, hmembers,
        Context.mem_of_linked ((Context.mem_anchoredComponents_iff members).1 hmembers).1 hi hij⟩)
    · exact (hmem j).2 (.inr (Context.mem_of_linked (hopener hi) hi hij))
  · intro i hi
    rcases (hmem i).1 hi with ⟨members, hmembers, hi⟩ | hi
    · obtain ⟨hpart, k, hk, hanchor⟩ := (Context.mem_anchoredComponents_iff members).1 hmembers
      exact .inl ⟨k, ((isPartitionBy_partition exps).mem_iff members hpart k hk i).1 hi, hanchor⟩
    · refine .inr fun first _ hfirst => ?_
      have hfirst : first ∈ opener := hfirst.resolve_left (List.ne_nil_of_mem hi)
      exact ((isPartitionBy_partition exps).mem_iff opener (hopener hi) first hfirst i).1 hi

end SearchUnit

namespace Context

variable {ctx : Context} {exps : List Expression}

/-- Every unit can be ordered completely from wherever its order may start. -/
theorem isCoherent_of_mem_units {unit : SearchUnit exps.length}
    (hunit : unit ∈ (ctx.units exps).units) : unit.IsCoherent ctx := by
  have halone {members : List (Fin exps.length)} (hmem : members ∈ ctx.rankedComponents exps) :
      (Units.alone members).IsCoherent ctx :=
    SearchUnit.isCoherent_alone ((mem_rankedComponents_iff members).1 hmem).1
  rw [units_eq] at hunit
  dsimp only at hunit
  split at hunit
  · obtain ⟨members, hmem, rfl⟩ := List.mem_map.1 hunit
    exact halone hmem
  · next hne =>
    rcases List.mem_cons.1 hunit with rfl | hunit
    · exact SearchUnit.isCoherent_anchoredUnit hne
    · obtain ⟨members, hmem, rfl⟩ := List.mem_map.1 hunit
      exact halone (List.mem_of_mem_tail hmem)

/-- The units hold every place once. -/
theorem units_members_perm (ctx : Context) (exps : List Expression) :
    ((ctx.units exps).units.flatMap SearchUnit.members).Perm (List.finRange exps.length) := by
  refine List.Perm.trans ?_ (ctx.flatten_anchored_append_ranked_perm exps)
  have halone (components : List (List (Fin exps.length))) :
      (components.map Units.alone).flatMap SearchUnit.members = components.flatten := by
    simp [List.flatMap_map, Units.alone, List.flatMap_id']
  rw [units_eq]
  dsimp only
  split
  · next hnil => rw [halone, hnil, List.flatten_nil, List.nil_append]
  · rw [List.flatMap_cons, halone]
    refine ((SearchUnit.anchoredUnit_members_perm _ _).append_right _).trans ?_
    rw [List.append_assoc]
    cases ctx.rankedComponents exps <;> exact .refl _

/-- A connected list has a single unit, which may start with any of its members. -/
theorem exists_unit_of_connected (ctx : Context) (h : (partition exps).length = 1) :
    ∃ unit, (ctx.units exps).units = [unit] ∧ unit.entry = [] := by
  have hlength := (ctx.anchored_append_ranked_perm exps).length_eq
  rw [h, List.length_append] at hlength
  rw [units_eq]
  cases hanchored : ctx.anchoredComponents exps with
  | nil =>
    rw [hanchored, List.length_nil, Nat.zero_add] at hlength
    obtain ⟨members, hranked⟩ := List.length_eq_one_iff.1 hlength
    exact ⟨Units.alone members, by simp [hranked], rfl⟩
  | cons members rest =>
    rw [hanchored, List.length_cons] at hlength
    have hranked : ctx.rankedComponents exps = [] := List.eq_nil_of_length_eq_zero (by omega)
    exact ⟨Units.anchoredUnit (members :: rest) [], by simp [hranked], rfl⟩

/-- Every unit but the first one is free. -/
theorem isFree_of_mem_tail_units {unit : SearchUnit exps.length}
    (hunit : unit ∈ (ctx.units exps).units.tail) : ctx.IsFree exps unit.members := by
  rw [units_eq] at hunit
  dsimp only at hunit
  split at hunit
  · rw [← List.map_tail] at hunit
    obtain ⟨members, hmem, rfl⟩ := List.mem_map.1 hunit
    exact isFree_of_mem_rankedComponents (List.mem_of_mem_tail hmem)
  · obtain ⟨members, hmem, rfl⟩ := List.mem_map.1 hunit
    exact isFree_of_mem_rankedComponents (List.mem_of_mem_tail hmem)

/-- Where an order may start only in some members, these are free. -/
theorem isFree_entry {unit : SearchUnit exps.length} (hunit : unit ∈ (ctx.units exps).units)
    (hne : unit.entry ≠ []) : ctx.IsFree exps unit.entry := by
  have halone {components : List (List (Fin exps.length))}
      (hmem : unit ∈ components.map Units.alone) : unit.entry = [] := by
    obtain ⟨members, _, rfl⟩ := List.mem_map.1 hmem
    rfl
  rw [units_eq] at hunit
  dsimp only at hunit
  split at hunit
  · exact absurd (halone hunit) hne
  · rcases List.mem_cons.1 hunit with rfl | hunit
    · cases hranked : ctx.rankedComponents exps with
      | nil => simp [Units.anchoredUnit, hranked] at hne
      | cons opener rest =>
        have hopener : ctx.IsFree exps opener :=
          isFree_of_mem_rankedComponents (by simp [hranked])
        simpa [Units.anchoredUnit] using hopener
    · exact absurd (halone hunit) hne

/-- There is at most one unit more than a valid order can enter. -/
theorem length_units_le (ctx : Context) (exps : List Expression) :
    (ctx.units exps).units.length ≤ max 1 (ctx.units exps).unanchored := by
  rw [units_eq]
  dsimp only
  split
  · simp
  · simp only [List.length_cons, List.length_map, List.length_tail]
    omega

/-- A list with a valid order has one component at most that touches no resolved alias. -/
theorem unanchored_le_one {order : List (Fin exps.length)}
    (hperm : order.Perm (List.finRange exps.length))
    (hvalid : ctx.ValidSequence (order.map exps.get)) : (ctx.units exps).unanchored ≤ 1 := by
  have hlength : (ctx.units exps).unanchored = (ctx.rankedComponents exps).length := by
    rw [units_eq]
  have hnodup : (ctx.rankedComponents exps).flatten.Nodup :=
    ((ctx.flatten_anchored_append_ranked_perm exps).nodup_iff.2
      (List.nodup_finRange _)).sublist (List.sublist_append_right _ _)
  rw [hlength]
  match hranked : ctx.rankedComponents exps with
  | [] => simp
  | [_] => simp
  | one :: two :: rest =>
    have hone : ctx.IsFree exps one := isFree_of_mem_rankedComponents (by simp [hranked])
    have htwo : ctx.IsFree exps two := isFree_of_mem_rankedComponents (by simp [hranked])
    cases order with
    | nil =>
      obtain ⟨i, _⟩ := List.exists_mem_of_ne_nil one hone.nonempty
      exact absurd (hperm.mem_iff.2 (List.mem_finRange i)) List.not_mem_nil
    | cons first order =>
      rw [hranked, List.flatten_cons, List.flatten_cons, List.nodup_append] at hnodup
      exact absurd rfl (hnodup.2.2 first (hone.head_mem hperm hvalid) first
        (List.mem_append_left _ (htwo.head_mem hperm hvalid)))

end Context

end PatternTraversal
