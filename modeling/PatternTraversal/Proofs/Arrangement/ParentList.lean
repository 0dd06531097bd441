import Mathlib.Logic.Relation
import Mathlib.Order.Bounds.Basic
import PatternTraversal.Proofs.Arrangement.DisjointSet

/-!
# Look-ups and unions in any sequence

A plain list of parents may hold any numbers, so nothing says that the loop that looks a root up
stays inside of the list, nor where it ends. Along a sequence of look-ups and unions that begins
with every number alone no parent lies above its child, and each loop goes down until it ends. What
it finds is the least number that the unions so far have linked with the one it was asked for, and
shortening the way to it changes no answer that follows.
-/

namespace PatternTraversal

namespace ParentList

/-- The root of a number in a list of parents, and the list in which each number on the way points
at its grandparent; none when the way leads out of the list, or does not end within some rounds. -/
def climb : (rounds : ℕ) → List ℕ → ℕ → Option (ℕ × List ℕ)
  | 0, _, _ => none
  | rounds + 1, parents, i => do
    let parent ← parents[i]?
    if parent = i then
      return (i, parents)
    else
      let grandparent ← parents[parent]?
      climb rounds (parents.set i grandparent) grandparent

/-- The list in which the larger root of two numbers points at the smaller one; none when a look-up
has no answer or the larger root lies outside of the list. -/
def join (rounds : ℕ) (parents : List ℕ) (a b : ℕ) : Option (List ℕ) := do
  let (rootA, parents) ← climb rounds parents a
  let (rootB, parents) ← climb rounds parents b
  if rootA = rootB then
    return parents
  else if max rootA rootB < parents.length then
    return parents.set (max rootA rootB) (min rootA rootB)
  else none

/-- The way up ends at a number that is its own parent. -/
theorem climb_of_root {parents : List ℕ} {i : ℕ} (h : parents[i]? = some i) (rounds : ℕ) :
    climb (rounds + 1) parents i = some (i, parents) := by
  rw [climb, h]
  simp

/-- The way up goes on at the grandparent. -/
theorem climb_of_ne {parents : List ℕ} {i parent grandparent : ℕ} (h : parents[i]? = some parent)
    (hne : parent ≠ i) (hgrand : parents[parent]? = some grandparent) (rounds : ℕ) :
    climb (rounds + 1) parents i = climb rounds (parents.set i grandparent) grandparent := by
  rw [climb, h]
  simp [hne, hgrand]

end ParentList

namespace DisjointSet

variable {n : ℕ}

/-! ## The plain list -/

/-- The parents as a plain list. -/
def parents (sets : DisjointSet n) : List ℕ := sets.parent.toList.map Fin.val

/-- There is a parent for each number. -/
@[simp] theorem length_parents (sets : DisjointSet n) : sets.parents.length = n := by
  simp [parents]

/-- The list holds the parent of each number. -/
theorem getElem?_parents (sets : DisjointSet n) {i : ℕ} (h : i < n) :
    sets.parents[i]? = some sets.parent[i].val := by
  simp [parents, h]

/-- Pointing a number elsewhere sets its entry. -/
theorem parents_point (sets : DisjointSet n) {i target : Fin n} (h : target ≤ i) :
    (sets.point i target h).parents = sets.parents.set i target := by
  rw [parents, point, Vector.toList_set, List.map_set]
  rfl

/-- Before any call each number is listed as its own parent. -/
theorem parents_singletons (n : ℕ) : (singletons n).parents = List.range n := by
  rw [parents, singletons, Vector.toList_ofFn, List.ofFn_id, List.map_coe_finRange_eq_range]

/-- A number that is its own root is its own parent. -/
theorem parent_of_root_eq {sets : DisjointSet n} {r : Fin n} (h : sets.root r = r) :
    sets.parent[r] = r := by
  have hparent := sets.parent_root r
  simpa only [h] using hparent

/-- A root that is pointed at itself leaves the list as it is. -/
theorem set_parents_of_root {sets : DisjointSet n} {r : Fin n} (h : sets.root r = r) :
    sets.parents.set r r = sets.parents := by
  apply List.ext_getElem?
  intro k
  rw [List.getElem?_set, length_parents, if_pos r.isLt]
  split
  · next heq =>
    have hentry : sets.parents[r.val]? = some sets.parent[r].val := sets.getElem?_parents r.isLt
    rw [← heq, hentry, parent_of_root_eq h]
  · rfl

/-- The loop on the list ends at the root that the look-up returns, in one round for each number
down to zero at most. -/
theorem climb_parents (sets : DisjointSet n) (i : Fin n) {rounds : ℕ} (h : i.val < rounds) :
    ParentList.climb rounds sets.parents i =
      some ((sets.find i).1.val, (sets.find i).2.parents) := by
  obtain ⟨rounds, rfl⟩ := Nat.exists_eq_add_one_of_ne_zero (Nat.ne_zero_of_lt h)
  fun_induction find sets i generalizing rounds with
  | case1 sets i hroot =>
    refine ParentList.climb_of_root ?_ rounds
    exact (sets.getElem?_parents i.isLt).trans (congrArg (fun j => some j.val) hroot)
  | case2 sets i hroot grandparent hle ih =>
    -- the way goes on below `i`, so one round less is enough there
    have hne : sets.parent[i].val ≠ i.val := fun heq => hroot (Fin.ext heq)
    have hparent : sets.parent[i].val < i.val := lt_of_le_of_ne (sets.parent_le i) hne
    have hgrand : grandparent.val < rounds := by
      have := sets.parent_le sets.parent[i]
      omega
    obtain ⟨fewer, rfl⟩ := Nat.exists_eq_add_one_of_ne_zero (Nat.ne_zero_of_lt hgrand)
    rw [ParentList.climb_of_ne (sets.getElem?_parents i.isLt) hne
      (sets.getElem?_parents sets.parent[i].isLt), ← ih fewer hgrand, sets.parents_point hle]
    rfl

/-- Joining on the list ends with the parents of the union. -/
theorem join_parents (sets : DisjointSet n) (a b : Fin n) :
    ParentList.join n sets.parents a b = some (sets.union a b).parents := by
  obtain ⟨ha, hkeepA⟩ := sets.find_spec a
  obtain ⟨-, hkeepB⟩ := (sets.find a).2.find_spec b
  -- after the second look-up the first root is still a root
  have hroot : ((sets.find a).2.find b).2.root (sets.find a).1 = (sets.find a).1 := by
    rw [hkeepB, hkeepA, ha, root_root]
  simp only [ParentList.join, climb_parents _ _ (Fin.isLt _), Option.bind_eq_bind,
    Option.bind_some, union, Fin.val_inj, length_parents]
  generalize (sets.find a).1 = rootA at hroot ⊢
  generalize ((sets.find a).2.find b).1 = rootB
  generalize ((sets.find a).2.find b).2 = shortened at hroot ⊢
  rcases lt_trichotomy rootA rootB with hlt | rfl | hgt
  · have hle : rootA.val ≤ rootB.val := Fin.le_def.1 hlt.le
    rw [if_neg hlt.ne, max_eq_right hle, min_eq_left hle, if_pos rootB.isLt, dif_pos hlt.le,
      parents_point]
    rfl
  · rw [if_pos rfl, dif_pos le_rfl, parents_point, set_parents_of_root hroot]
    rfl
  · have hle : rootB.val ≤ rootA.val := Fin.le_def.1 hgt.le
    rw [if_neg hgt.ne', max_eq_left hle, min_eq_right hle, if_pos rootA.isLt,
      dif_neg (not_le.2 hgt), parents_point]
    rfl

/-! ## Sequences of calls -/

/-- A look-up or a union of numbers below `n`. -/
inductive Call (n : ℕ) where
  | find (i : Fin n)
  | union (a b : Fin n)

/-- The sets after a call. -/
def serve (sets : DisjointSet n) : Call n → DisjointSet n
  | .find i => (sets.find i).2
  | .union a b => sets.union a b

/-- The sets after some calls, each number being alone before them. -/
def after (calls : List (Call n)) : DisjointSet n := calls.foldl serve (singletons n)

/-- The answer to a look-up after some calls. -/
def found (calls : List (Call n)) (i : Fin n) : Fin n := ((after calls).find i).1

/-- Linked by the unions among some calls, directly or through others. -/
def LinkedBy (calls : List (Call n)) : Fin n → Fin n → Prop :=
  Relation.EqvGen fun a b => Call.union a b ∈ calls

end DisjointSet

/-- A call on a plain list of `n` parents, each look-up taking `n` rounds at most. -/
def ParentList.serve {n : ℕ} (parents : List ℕ) : DisjointSet.Call n → Option (List ℕ)
  | .find i => (climb n parents i).map Prod.snd
  | .union a b => join n parents a b

namespace DisjointSet

variable {n : ℕ}

/-- The list after a call holds the parents after it. -/
theorem serve_parents (sets : DisjointSet n) (call : Call n) :
    ParentList.serve sets.parents call = some (sets.serve call).parents := by
  cases call with
  | find i => rw [ParentList.serve, climb_parents _ _ i.isLt]; rfl
  | union a b => exact sets.join_parents a b

/-- A sequence of calls on the list runs to its end. -/
theorem foldlM_serve_parents (calls : List (Call n)) (sets : DisjointSet n) :
    calls.foldlM ParentList.serve sets.parents = some (calls.foldl serve sets).parents := by
  induction calls generalizing sets with
  | nil => rfl
  | cons call rest ih =>
    rw [List.foldlM_cons, serve_parents, Option.bind_eq_bind, Option.bind_some, ih]
    rfl

/-- A look-up answers with the root. -/
theorem found_eq_root (calls : List (Call n)) (i : Fin n) : found calls i = (after calls).root i :=
  ((after calls).find_spec i).1

/-- Calls keep two disjoint sets with the same roots alike. -/
theorem root_foldl_serve_congr (calls : List (Call n)) {one two : DisjointSet n}
    (h : ∀ i, one.root i = two.root i) (i : Fin n) :
    (calls.foldl serve one).root i = (calls.foldl serve two).root i := by
  induction calls generalizing one two with
  | nil => exact h i
  | cons call rest ih =>
    refine ih fun j => ?_
    cases call with
    | find k => rw [serve, serve, (one.find_spec k).2, (two.find_spec k).2, h]
    | union a b => rw [serve, serve, root_union, root_union, h, h, h]

/-- What holds along every sequence of calls: numbers linked by a union share a root, and a root is
linked with its numbers. -/
structure Joins (sets : DisjointSet n) (calls : List (Call n)) : Prop where
  root_eq : ∀ a b, Call.union a b ∈ calls → sets.root a = sets.root b
  linked : ∀ i j, sets.root i = sets.root j → LinkedBy calls i j

/-- More calls link more. -/
theorem LinkedBy.mono {calls more : List (Call n)} (h : calls ⊆ more) {i j : Fin n}
    (hij : LinkedBy calls i j) : LinkedBy more i j :=
  Relation.EqvGen.mono (fun _ _ hmem => h hmem) i j hij

/-- Before any call nothing is linked. -/
theorem joins_singletons (n : ℕ) : (singletons n).Joins [] where
  root_eq a b h := absurd h List.not_mem_nil
  linked i j h := by
    rw [root_singletons, root_singletons] at h
    exact h ▸ .refl i

/-- One more call links what it joins and nothing else. -/
theorem Joins.serve {sets : DisjointSet n} {calls : List (Call n)} (h : sets.Joins calls)
    (call : Call n) : (sets.serve call).Joins (calls ++ [call]) := by
  have hmono : calls ⊆ calls ++ [call] := List.subset_append_left _ _
  cases call with
  | find k =>
    constructor
    · intro a b hab
      have hab : Call.union a b ∈ calls := by simpa using hab
      rw [DisjointSet.serve, (sets.find_spec k).2, (sets.find_spec k).2, h.root_eq a b hab]
    · intro i j hij
      rw [DisjointSet.serve, (sets.find_spec k).2, (sets.find_spec k).2] at hij
      exact (h.linked i j hij).mono hmono
  | union a b =>
    have hab : LinkedBy (calls ++ [.union a b]) a b := .rel a b (by simp)
    constructor
    · intro c d hcd
      rw [DisjointSet.serve, root_union_eq_iff]
      rcases List.mem_append.1 hcd with hcd | hcd
      · exact .inl (h.root_eq c d hcd)
      · obtain ⟨rfl, rfl⟩ : c = a ∧ d = b := by simpa using hcd
        exact .inr (.inl ⟨rfl, rfl⟩)
    · intro i j hij
      rw [DisjointSet.serve, root_union_eq_iff] at hij
      rcases hij with hij | ⟨hi, hj⟩ | ⟨hi, hj⟩
      · exact (h.linked i j hij).mono hmono
      · have hia : LinkedBy (calls ++ [.union a b]) i a := (h.linked i a hi).mono hmono
        have hjb : LinkedBy (calls ++ [.union a b]) j b := (h.linked j b hj).mono hmono
        exact (hia.trans _ _ _ hab).trans _ _ _ (hjb.symm _ _)
      · have hib : LinkedBy (calls ++ [.union a b]) i b := (h.linked i b hi).mono hmono
        have hja : LinkedBy (calls ++ [.union a b]) j a := (h.linked j a hj).mono hmono
        exact (hib.trans _ _ _ (hab.symm _ _)).trans _ _ _ (hja.symm _ _)

/-- Further calls link what they join and nothing else. -/
theorem Joins.foldl_serve {sets : DisjointSet n} {calls : List (Call n)} (h : sets.Joins calls)
    (further : List (Call n)) :
    (further.foldl DisjointSet.serve sets).Joins (calls ++ further) := by
  induction further generalizing sets calls with
  | nil => simpa using h
  | cons call rest ih => simpa using ih (h.serve call)

/-- Every sequence of calls links what its unions join and nothing else. -/
theorem joins_after (calls : List (Call n)) : (after calls).Joins calls :=
  (joins_singletons n).foldl_serve calls

/-- Numbers share a root exactly when the unions have linked them. -/
theorem root_after_eq_iff (calls : List (Call n)) (i j : Fin n) :
    (after calls).root i = (after calls).root j ↔ LinkedBy calls i j := by
  refine ⟨(joins_after calls).linked i j, fun h => ?_⟩
  induction h with
  | rel a b hab => exact (joins_after calls).root_eq a b hab
  | refl a => rfl
  | symm _ _ _ ih => exact ih.symm
  | trans _ _ _ _ _ ihab ihbc => exact ihab.trans ihbc

/-- The root of a number is the least one linked with it. -/
theorem isLeast_found (calls : List (Call n)) (i : Fin n) :
    IsLeast {j | LinkedBy calls i j} (found calls i) := by
  rw [found_eq_root]
  constructor
  · exact (root_after_eq_iff calls _ _).1 ((after calls).root_root i).symm
  · intro j hij
    rw [(root_after_eq_iff calls i j).2 hij]
    exact (after calls).root_le j

/-- A look-up changes no later answer. -/
theorem found_append_find (calls later : List (Call n)) (i j : Fin n) :
    found (calls ++ .find i :: later) j = found (calls ++ later) j := by
  simp only [found_eq_root, after, List.foldl_append, List.foldl_cons]
  exact root_foldl_serve_congr later ((after calls).find_spec i).2 j

/-- A union merges the two classes and no others. -/
theorem found_append_union_eq_iff (calls : List (Call n)) (a b i j : Fin n) :
    found (calls ++ [.union a b]) i = found (calls ++ [.union a b]) j ↔
      found calls i = found calls j ∨
        (found calls i = found calls a ∧ found calls j = found calls b) ∨
        (found calls i = found calls b ∧ found calls j = found calls a) := by
  simp only [found_eq_root, after, List.foldl_append, List.foldl_cons, List.foldl_nil]
  exact (after calls).root_union_eq_iff a b i j

/-- A sequence of look-ups and unions on a plain list of parents, each number being its own parent
at first, runs to its end, and no parent lies above its child then; so the next look-up ends as
well, inside of the list and before its rounds outnumber the numbers from zero to the one it is
asked for. It answers with the least number that the unions so far have linked with that one. A
look-up changes no later answer, whatever is called in between, and a union merges the classes of
its two numbers and no others. -/
theorem found_least_linked (calls : List (Call n)) :
    (calls.foldlM ParentList.serve (List.range n) = some (after calls).parents ∧
        (∀ i parent : ℕ, (after calls).parents[i]? = some parent → parent ≤ i) ∧
        ∀ (i : Fin n) (rounds : ℕ), i.val < rounds →
          ParentList.climb rounds (after calls).parents i =
            some ((found calls i).val, (after (calls ++ [.find i])).parents)) ∧
      (∀ i, IsLeast {j | LinkedBy calls i j} (found calls i)) ∧
      (∀ i later j, found (calls ++ .find i :: later) j = found (calls ++ later) j) ∧
      ∀ a b i j, found (calls ++ [.union a b]) i = found (calls ++ [.union a b]) j ↔
        found calls i = found calls j ∨
          (found calls i = found calls a ∧ found calls j = found calls b) ∨
          (found calls i = found calls b ∧ found calls j = found calls a) := by
  have hrun := foldlM_serve_parents calls (singletons n)
  rw [parents_singletons] at hrun
  refine ⟨⟨hrun, fun i parent hparent => ?_, fun i rounds hrounds => ?_⟩, isLeast_found calls,
    fun i later j => found_append_find calls later i j,
    fun a b i j => found_append_union_eq_iff calls a b i j⟩
  · obtain ⟨hi, -⟩ := List.getElem?_eq_some_iff.1 hparent
    rw [length_parents] at hi
    have hentry : some (after calls).parent[i].val = some parent :=
      ((after calls).getElem?_parents hi).symm.trans hparent
    rw [← Option.some.inj hentry]
    exact (after calls).parent_le ⟨i, hi⟩
  · rw [climb_parents _ _ hrounds, after, after, List.foldl_append]
    rfl

/-- Three numbers in one class and two alone; the largest one points at its root only after it has
been looked up. -/
theorem found_least_linked_five :
    let calls : List (Call 5) := [.union 3 4, .find 4, .union 4 1]
    calls.foldlM ParentList.serve (List.range 5) = some [0, 1, 2, 1, 3] ∧
      ParentList.climb 5 [0, 1, 2, 1, 3] 4 = some (1, [0, 1, 2, 1, 1]) ∧
      IsLeast {j | LinkedBy calls 4 j} 1 := by
  intro calls
  have hparents : (after calls).parents = [0, 1, 2, 1, 3] := by decide +kernel
  have hlater : (after (calls ++ [.find 4])).parents = [0, 1, 2, 1, 1] := by decide +kernel
  have hfound : found calls 4 = 1 := by decide +kernel
  obtain ⟨⟨hrun, -, hclimb⟩, hleast, -⟩ := found_least_linked calls
  have hclimb := hclimb 4 5 (by decide)
  have hleast := hleast 4
  rw [hparents] at hrun
  rw [hparents, hlater, hfound] at hclimb
  rw [hfound] at hleast
  exact ⟨hrun, hclimb, hleast⟩

end DisjointSet

end PatternTraversal
