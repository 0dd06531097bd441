import Mathlib.Algebra.GroupWithZero.Nat
import PatternTraversal.Condition

/-!
# Conjuncts of a condition

A condition is read in four ways, each by a recursion of its own: as a set of aliases, as a test for
one alias, as a number of comparisons and as a list of conjuncts. The set holds what the test
accepts. The conjuncts hold the aliases and the comparisons of the whole condition, and since
splitting undoes joining, nothing but the nesting of the conjunctions is lost.
-/

namespace PatternTraversal

namespace Condition

/-- The aliases added by a condition are those that it constrains. -/
theorem mem_addAliases_iff (condition : Condition) (known : AliasSet) (ident : Alias) :
    ident ∈ condition.addAliases known ↔ ident ∈ known ∨ condition.references ident = true := by
  induction condition generalizing known with
  | compare _ lhs rhs =>
    simp [addAliases, references, Std.ExtTreeSet.mem_insertMany_list, or_assoc]
  | join _ left right ihl ihr => simp [addAliases, references, ihl, ihr, or_assoc]
  | not child ih => simp [addAliases, references, ih]

/-- The aliases of a condition are those that it constrains. -/
theorem mem_aliases_iff (condition : Condition) (ident : Alias) :
    ident ∈ condition.aliases ↔ condition.references ident = true := by
  simp [aliases, mem_addAliases_iff]

/-! ## Splitting -/

/-- Whether the top of a condition is a conjunction. -/
def isConjunction : Condition → Bool
  | join .and _ _ => true
  | _ => false

/-- What is no conjunction is its only conjunct. -/
theorem conjuncts_of_isConjunction_eq_false {condition : Condition}
    (h : condition.isConjunction = false) : condition.conjuncts = [condition] := by
  cases condition with
  | compare relation lhs rhs => rfl
  | join connective left right =>
    cases connective with
    | and => cases h
    | or => rfl
  | not child => rfl

/-- A property of all conditions follows from the ones that are no conjunctions, when the two sides
of a conjunction pass it on. -/
theorem induction_conjuncts {P : Condition → Prop}
    (conjunct : ∀ condition, condition.isConjunction = false → P condition)
    (and : ∀ left right, P left → P right → P (and left right)) (condition : Condition) :
    P condition := by
  induction condition with
  | compare relation lhs rhs => exact conjunct _ rfl
  | join connective left right ihl ihr =>
    cases connective with
    | and => exact and left right ihl ihr
    | or => exact conjunct _ rfl
  | not child => exact conjunct _ rfl

/-- No conjunct is a conjunction. -/
theorem isConjunction_of_mem_conjuncts {condition part : Condition}
    (h : part ∈ condition.conjuncts) : part.isConjunction = false := by
  induction condition using induction_conjuncts with
  | conjunct condition hcondition =>
    rw [conjuncts_of_isConjunction_eq_false hcondition, List.mem_singleton] at h
    exact h ▸ hcondition
  | and left right ihl ihr =>
    rw [conjuncts_and, List.mem_append] at h
    exact h.elim ihl ihr

/-- Every condition has a conjunct. -/
theorem conjuncts_ne_nil (condition : Condition) : condition.conjuncts ≠ [] := by
  induction condition using induction_conjuncts with
  | conjunct condition hcondition => simp [conjuncts_of_isConjunction_eq_false hcondition]
  | and left right ihl _ => simp [conjuncts_and, ihl]

/-- A condition constrains what its conjuncts constrain. -/
theorem references_iff_exists_conjunct (condition : Condition) (ident : Alias) :
    condition.references ident = true ↔
      ∃ part ∈ condition.conjuncts, part.references ident = true := by
  induction condition using induction_conjuncts with
  | conjunct condition hcondition => simp [conjuncts_of_isConjunction_eq_false hcondition]
  | and left right ihl ihr =>
    simp only [conjuncts_and, List.mem_append, or_and_right, exists_or, ← ihl, ← ihr]
    simp [and, references]

/-- The comparisons of a condition are those of its conjuncts. -/
theorem comparisonCount_eq_sum (condition : Condition) :
    condition.comparisonCount = (condition.conjuncts.map comparisonCount).sum := by
  induction condition using induction_conjuncts with
  | conjunct condition hcondition => simp [conjuncts_of_isConjunction_eq_false hcondition]
  | and left right ihl ihr =>
    rw [conjuncts_and, List.map_append, List.sum_append, ← ihl, ← ihr]
    rfl

/-! ## Joining -/

/-- Joining to the left puts the conjuncts one behind the other. -/
theorem conjuncts_foldl_and (first : Condition) (rest : List Condition) :
    (rest.foldl and first).conjuncts = first.conjuncts ++ rest.flatMap conjuncts := by
  induction rest generalizing first with
  | nil => simp
  | cons next rest ih =>
    rw [List.foldl_cons, ih, conjuncts_and, List.flatMap_cons, List.append_assoc]

/-- Some conditions have a conjunction, and it splits into the conjuncts of each of them. -/
theorem exists_all {conditions : List Condition} (h : conditions ≠ []) :
    ∃ whole, all conditions = some whole ∧ whole.conjuncts = conditions.flatMap conjuncts := by
  cases conditions with
  | nil => exact absurd rfl h
  | cons first rest => exact ⟨_, rfl, conjuncts_foldl_and first rest⟩

/-- Splitting each conjunct again changes nothing. -/
theorem flatMap_conjuncts_conjuncts (condition : Condition) :
    condition.conjuncts.flatMap conjuncts = condition.conjuncts := by
  induction condition using induction_conjuncts with
  | conjunct condition hcondition => simp [conjuncts_of_isConjunction_eq_false hcondition]
  | and left right ihl ihr => rw [conjuncts_and, List.flatMap_append, ihl, ihr]

/-- The aliases of a condition are those it references. No conjunct is a conjunction, and the
conjuncts have the aliases and the comparisons of the condition. A conjunction of several conditions
splits into their conjuncts, one condition after the other, so splitting, joining and splitting
again gives the same conjuncts. -/
theorem conjuncts_lossless (condition : Condition) :
    (∀ ident, condition.references ident = true ↔ ident ∈ condition.aliases) ∧
      (∀ part ∈ condition.conjuncts, ∀ left right, part ≠ and left right) ∧
      (∀ ident, ident ∈ condition.aliases ↔ ∃ part ∈ condition.conjuncts, ident ∈ part.aliases) ∧
      condition.comparisonCount = (condition.conjuncts.map comparisonCount).sum ∧
      (∀ conditions, conditions ≠ [] → ∃ whole, all conditions = some whole ∧
        whole.conjuncts = conditions.flatMap conjuncts) ∧
      ∃ rejoined, all condition.conjuncts = some rejoined ∧
        rejoined.conjuncts = condition.conjuncts := by
  refine ⟨fun ident => (condition.mem_aliases_iff ident).symm, ?_, ?_,
    condition.comparisonCount_eq_sum, fun conditions => exists_all, ?_⟩
  · rintro part hpart left right rfl
    exact Bool.noConfusion (isConjunction_of_mem_conjuncts hpart)
  · intro ident
    simp only [mem_aliases_iff]
    exact condition.references_iff_exists_conjunct ident
  · rw [← condition.flatMap_conjuncts_conjuncts]
    simpa only [flatMap_conjuncts_conjuncts] using exists_all condition.conjuncts_ne_nil

/-- A conjunction of two comparisons joined with a disjunction that has a conjunction beneath it:
the disjunction stays whole. -/
theorem conjuncts_lossless_three_parts :
    let test (name : String) : Condition := .compare .gt (.property ⟨name⟩ "age") (.literal .null)
    let choice := or (test "c") (not (and (test "d") (test "a")))
    let conditions := [and (test "a") (test "b"), choice]
    conditions ≠ [] ∧ ∃ whole, all conditions = some whole ∧
      whole.conjuncts = [test "a", test "b", choice] ∧ whole.comparisonCount = 5 ∧
      (∀ ident, ident ∈ whole.aliases ↔
        ∃ part ∈ [test "a", test "b", choice], ident ∈ part.aliases) ∧
      whole.references ⟨"d"⟩ = true ∧ ⟨"d"⟩ ∈ whole.aliases := by
  intro test choice conditions
  have hne : conditions ≠ [] := List.cons_ne_nil _ _
  obtain ⟨-, -, -, -, hall, -⟩ := conjuncts_lossless choice
  obtain ⟨whole, hwhole, hconjuncts⟩ := hall conditions hne
  have hconjuncts : whole.conjuncts = [test "a", test "b", choice] := hconjuncts
  obtain ⟨haliases, -, hunion, hcount, -, -⟩ := conjuncts_lossless whole
  rw [hconjuncts] at hunion hcount
  have hreferences : whole.references ⟨"d"⟩ = true := by
    cases hwhole
    decide
  exact ⟨hne, whole, hwhole, hconjuncts, hcount, hunion, hreferences, (haliases _).1 hreferences⟩

end Condition

end PatternTraversal
