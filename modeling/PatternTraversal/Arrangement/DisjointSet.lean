/-!
# Disjoint sets

A forest over the numbers below `n`. No parent lies above its child, so the way up ends at a root,
and joining two sets keeps the smaller root: the root of a number is the smallest number of its set.
Looking up a root shortens the ways it passes and leaves every root as it was.
-/

namespace PatternTraversal

/-- A forest of parent pointers over the numbers below `n`; a root points at itself. -/
structure DisjointSet (n : Nat) where
  parent : Vector (Fin n) n
  parent_le : ∀ i : Fin n, parent[i] ≤ i

namespace DisjointSet

/-- Every number alone. -/
def singletons (n : Nat) : DisjointSet n where
  parent := Vector.ofFn id
  parent_le i := by simp

/-- Point a number at another one that does not lie above it. -/
def point {n : Nat} (sets : DisjointSet n) (i target : Fin n) (h : target ≤ i) : DisjointSet n where
  parent := sets.parent.set i target
  parent_le j := by
    simp only [Fin.getElem_fin, Vector.getElem_set]
    split
    · next hij =>
      have : i = j := Fin.ext hij
      exact this ▸ h
    · exact sets.parent_le j

/-- The root of a number, read off without a change. -/
def root {n : Nat} (sets : DisjointSet n) (i : Fin n) : Fin n :=
  if sets.parent[i] = i then i else sets.root sets.parent[i]
termination_by i.val
decreasing_by
  have := sets.parent_le i
  omega

/-- The root of a number; the numbers on the way are pointed at their grandparents. -/
def find {n : Nat} (sets : DisjointSet n) (i : Fin n) : Fin n × DisjointSet n :=
  if sets.parent[i] = i then (i, sets)
  else
    let grandparent := sets.parent[sets.parent[i]]
    have h : grandparent ≤ i := Fin.le_trans (sets.parent_le _) (sets.parent_le i)
    (sets.point i grandparent h).find grandparent
termination_by i.val
decreasing_by
  have h₁ := sets.parent_le i
  have h₂ := sets.parent_le sets.parent[i]
  simp only [Fin.getElem_fin] at *
  omega

/-- Join the sets of two numbers under the smaller root. -/
def union {n : Nat} (sets : DisjointSet n) (a b : Fin n) : DisjointSet n :=
  let (rootA, sets) := sets.find a
  let (rootB, sets) := sets.find b
  if h : rootA ≤ rootB then sets.point rootB rootA h
  else sets.point rootA rootB (Fin.le_of_lt (Fin.not_le.1 h))

/-- State of the pass that gathers the sets. -/
structure Gathering (n : Nat) where
  sets : DisjointSet n
  /-- Which of the classes belongs to a root. -/
  slots : Vector (Option Nat) n
  /-- The classes so far, each with the numbers met so far. -/
  classes : List (List (Fin n))

namespace Gathering

/-- No number met yet. -/
def start {n : Nat} (sets : DisjointSet n) : Gathering n := ⟨sets, .replicate n none, []⟩

/-- Put a number behind the others of its class, or into a new class when its root has none. -/
def add {n : Nat} (gathering : Gathering n) (i : Fin n) : Gathering n :=
  let (root, sets) := gathering.sets.find i
  match gathering.slots[root] with
  | some slot => { gathering with sets, classes := gathering.classes.modify slot (· ++ [i]) }
  | none =>
    { sets
      slots := gathering.slots.set root (some gathering.classes.length)
      classes := gathering.classes ++ [[i]] }

end Gathering

/-- The sets, each ascending, in the order of their smallest members. -/
def classes {n : Nat} (sets : DisjointSet n) : List (List (Fin n)) :=
  ((List.finRange n).foldl Gathering.add (.start sets)).classes

/-- The root of a root is the root. -/
theorem root_of_parent_eq {n : Nat} {sets : DisjointSet n} {i : Fin n} (h : sets.parent[i] = i) :
    sets.root i = i := by
  rw [root, if_pos h]

/-- A number has the root of its parent. -/
theorem root_parent {n : Nat} (sets : DisjointSet n) (i : Fin n) :
    sets.root sets.parent[i] = sets.root i := by
  by_cases h : sets.parent[i] = i
  · rw [h]
  · rw [root.eq_1 sets i, if_neg h]

/-- No root lies above its number. -/
theorem root_le {n : Nat} (sets : DisjointSet n) (i : Fin n) : sets.root i ≤ i := by
  fun_induction root sets i with
  | case1 => exact Fin.le_refl _
  | case2 i _ ih => exact Fin.le_trans ih (sets.parent_le i)

end DisjointSet

end PatternTraversal
