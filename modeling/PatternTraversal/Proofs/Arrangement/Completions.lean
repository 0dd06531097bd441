import Mathlib.Algebra.GroupWithZero.Nat
import Mathlib.Data.List.Basic
import Mathlib.Data.List.Nodup
import Mathlib.Data.List.Lex
import PatternTraversal.Arrangement.Search

/-!
# Completions of an order

The tree that a depth-first search walks, without the search: the ways to complete some placed
members, in the order in which the search meets them. Going through the members in ascending order
lists the completions in lexicographic order, so the first one of the best score is the least one of
that score.
-/

namespace PatternTraversal

namespace Ranked

/-- The first one of the best score. -/
def best : List Ranked → Option Ranked
  | [] => none
  | ranked :: rest => first (some ranked) (best rest)

/-- Nothing is worse than anything. -/
@[simp] theorem first_none (earlier? : Option Ranked) : first earlier? none = earlier? := by
  cases earlier? <;> rfl

/-- Which of three is the first best does not depend on the pair compared first. -/
theorem first_assoc (one? two? three? : Option Ranked) :
    first (first one? two?) three? = first one? (first two? three?) := by
  cases one? with
  | none => rfl
  | some one =>
    cases two? with
    | none => rfl
    | some two =>
      cases three? with
      | none => rw [first_none, first_none]
      | some three => grind [first]

/-- The first best of two lists in a row. -/
theorem best_append (earlier later : List Ranked) :
    best (earlier ++ later) = first (best earlier) (best later) := by
  induction earlier with
  | nil => rfl
  | cons ranked rest ih => rw [List.cons_append, best, best, ih, first_assoc]

/-- Only of nothing there is no best. -/
theorem best_eq_none_iff (all : List Ranked) : best all = none ↔ all = [] := by
  cases all with
  | nil => simp [best]
  | cons ranked rest =>
    cases h : best rest with
    | none => simp [best, h]
    | some other =>
      simp only [best, h, first, reduceCtorEq, iff_false]
      split <;> simp

/-- The best one is listed, none scores more, and the others of its score are listed after it. -/
theorem best_listed_first {earlier : Ranked → Ranked → Prop} {all : List Ranked}
    (hsorted : all.Pairwise earlier) {found : Ranked} (h : best all = some found) :
    found ∈ all ∧ ∀ other ∈ all,
      other.score ≤ found.score ∧
        (other.score = found.score → other = found ∨ earlier found other) := by
  induction all generalizing found with
  | nil => simp [best] at h
  | cons ranked rest ih =>
    rw [List.pairwise_cons] at hsorted
    cases hrest : best rest with
    | none =>
      obtain rfl := (best_eq_none_iff rest).1 hrest
      obtain rfl : ranked = found := by simpa [best] using h
      simp
    | some second =>
      obtain ⟨hmem, hbest⟩ := ih hsorted.2 hrest
      by_cases hless : ranked.score < second.score
      · obtain rfl : second = found := by simpa [best, hrest, first, hless] using h
        refine ⟨List.mem_cons_of_mem _ hmem, fun other hother => ?_⟩
        rcases List.mem_cons.1 hother with rfl | hother
        · exact ⟨Int.le_of_lt hless, fun heq => absurd heq (Int.ne_of_lt hless)⟩
        · exact hbest other hother
      · obtain rfl : ranked = found := by simpa [best, hrest, first, hless] using h
        refine ⟨List.mem_cons_self, fun other hother => ?_⟩
        rcases List.mem_cons.1 hother with rfl | hother
        · exact ⟨Int.le_refl _, fun _ => .inl rfl⟩
        · exact ⟨Int.le_trans (hbest other hother).1 (Int.not_lt.1 hless),
            fun _ => .inr (hsorted.1 other hother)⟩

end Ranked

namespace Search

variable {n : ℕ} (members : List (Fin n)) (follows : List (Fin n) → Fin n → Bool)

/-- Members that may come next, `placed` being the members placed so far, the last one first. -/
def nextMembers (placed : List (Fin n)) : List (Fin n) :=
  members.filter fun i => !decide (i ∈ placed) && follows placed i

/-- The ways to place `remaining` further members, depth first. -/
def completions : (remaining : ℕ) → (placed : List (Fin n)) → List (List (Fin n))
  | 0, _ => [[]]
  | remaining + 1, placed =>
    (nextMembers members follows placed).flatMap fun i =>
      (completions remaining (i :: placed)).map (i :: ·)

/-- Number of incomplete orders below some placed members that nothing can follow. -/
def stuck : (remaining : ℕ) → (placed : List (Fin n)) → ℕ
  | 0, _ => 0
  | remaining + 1, placed =>
    if nextMembers members follows placed = [] then 1
    else ((nextMembers members follows placed).map fun i => stuck remaining (i :: placed)).sum

/-- Each member of an order is new and may come next. -/
def Continues : (placed order : List (Fin n)) → Prop
  | _, [] => True
  | placed, i :: rest => (i ∉ placed ∧ follows placed i = true) ∧ Continues (i :: placed) rest

variable {members follows}

/-- What may come next is new and follows. -/
theorem mem_nextMembers_iff (placed : List (Fin n)) (i : Fin n) :
    i ∈ nextMembers members follows placed ↔
      i ∈ members ∧ i ∉ placed ∧ follows placed i = true := by
  simp [nextMembers]

/-- The completions are the orders of the right length whose members may come one after the
other. -/
theorem mem_completions_iff (remaining : ℕ) (placed order : List (Fin n)) :
    order ∈ completions members follows remaining placed ↔
      order.length = remaining ∧ order ⊆ members ∧ Continues follows placed order := by
  induction remaining generalizing placed order with
  | zero =>
    rw [completions, List.mem_singleton]
    constructor
    · rintro rfl
      exact ⟨rfl, List.nil_subset _, trivial⟩
    · exact fun h => List.eq_nil_of_length_eq_zero h.1
  | succ remaining ih =>
    simp only [completions, List.mem_flatMap, List.mem_map, mem_nextMembers_iff, ih]
    constructor
    · rintro ⟨i, ⟨hi, hnext⟩, rest, ⟨hlength, hsub, hrest⟩, rfl⟩
      exact ⟨by rw [List.length_cons, hlength], List.cons_subset.2 ⟨hi, hsub⟩, hnext, hrest⟩
    · rintro ⟨hlength, hsub, hcontinues⟩
      cases order with
      | nil => simp at hlength
      | cons i rest =>
        obtain ⟨hi, hsub⟩ := List.cons_subset.1 hsub
        exact ⟨i, ⟨hi, hcontinues.1⟩, rest, ⟨by simpa using hlength, hsub, hcontinues.2⟩, rfl⟩

/-- The completions are listed in lexicographic order. -/
theorem pairwise_completions (hascending : members.Pairwise (· < ·)) (remaining : ℕ)
    (placed : List (Fin n)) :
    (completions members follows remaining placed).Pairwise (List.Lex (· < ·)) := by
  induction remaining generalizing placed with
  | zero => simp [completions]
  | succ remaining ih =>
    rw [completions, List.pairwise_flatMap]
    constructor
    · intro i _
      rw [List.pairwise_map]
      exact (ih (i :: placed)).imp fun h => .cons h
    · refine (hascending.filter _).imp fun {i j} hij => ?_
      simp only [List.mem_map]
      rintro _ ⟨one, _, rfl⟩ _ ⟨two, _, rfl⟩
      exact .rel hij

section Unobstructed

variable {started : List (Fin n) → Prop}
  (hstep : ∀ placed i, started placed → i ∈ nextMembers members follows placed →
    started (i :: placed))
  (hnext : ∀ placed, started placed → placed.length < members.length →
    nextMembers members follows placed ≠ [])

include hstep hnext

/-- Where something can always follow, no search gets stuck. -/
theorem stuck_eq_zero (remaining : ℕ) {placed : List (Fin n)} (hstarted : started placed)
    (hlength : placed.length + remaining = members.length) :
    stuck members follows remaining placed = 0 := by
  induction remaining generalizing placed with
  | zero => rfl
  | succ remaining ih =>
    rw [stuck, if_neg (hnext placed hstarted (by omega)), List.sum_eq_zero_iff_forall_eq_nat]
    intro count hcount
    obtain ⟨i, hi, rfl⟩ := List.mem_map.1 hcount
    exact ih (hstep placed i hstarted hi) (by rw [List.length_cons]; omega)

/-- Where something can always follow, there is a completion. -/
theorem completions_ne_nil (remaining : ℕ) {placed : List (Fin n)} (hstarted : started placed)
    (hlength : placed.length + remaining = members.length) :
    completions members follows remaining placed ≠ [] := by
  induction remaining generalizing placed with
  | zero => simp [completions]
  | succ remaining ih =>
    obtain ⟨i, hi⟩ := List.exists_mem_of_ne_nil _ (hnext placed hstarted (by omega))
    obtain ⟨order, horder⟩ := List.exists_mem_of_ne_nil _
      (ih (hstep placed i hstarted hi) (by rw [List.length_cons]; omega))
    exact List.ne_nil_of_mem (List.mem_flatMap.2 ⟨i, hi, List.mem_map_of_mem horder⟩)

end Unobstructed

end Search

end PatternTraversal
