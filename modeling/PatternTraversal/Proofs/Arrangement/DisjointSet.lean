import Mathlib.Data.List.Basic
import Mathlib.Data.List.FinRange
import Mathlib.Order.Fin.Basic
import PatternTraversal.Arrangement.DisjointSet

/-!
# Roots and classes of a disjoint set

What the forest means is the root of each number. Shortening a way keeps every root, so a look-up
returns the root it was asked for and changes no later answer; a union moves exactly the two classes
it joins to the smaller of their roots. The pass that gathers the classes meets a root before the
other numbers of its set, so it lists every number once, behind its root.
-/

namespace PatternTraversal

namespace DisjointSet

variable {n : ℕ}

/-- The way up from a number ends at a root. -/
@[simp] theorem parent_root (sets : DisjointSet n) (i : Fin n) :
    sets.parent[sets.root i] = sets.root i := by
  fun_induction root sets i with
  | case1 i h => simpa only [root_of_parent_eq h] using h
  | case2 i _ ih => simpa only [root_parent] using ih

/-- A root is its own root. -/
@[simp] theorem root_root (sets : DisjointSet n) (i : Fin n) :
    sets.root (sets.root i) = sets.root i :=
  root_of_parent_eq (sets.parent_root i)

/-- Pointing a number elsewhere changes its parent alone. -/
theorem parent_point (sets : DisjointSet n) {i target : Fin n} (h : target ≤ i) (j : Fin n) :
    (sets.point i target h).parent[j] = if j = i then target else sets.parent[j] := by
  simp only [point, Fin.getElem_fin, Vector.getElem_set]
  by_cases hji : j = i
  · simp [hji]
  · rw [if_neg hji, if_neg fun hij => hji (Fin.ext hij.symm)]

/-- Pointing a number at a smaller one of the same set keeps every root. -/
theorem root_point_of_root_eq (sets : DisjointSet n) {i target : Fin n} (hlt : target < i)
    (hroot : sets.root target = sets.root i) (j : Fin n) :
    (sets.point i target hlt.le).root j = sets.root j := by
  induction j using WellFoundedLT.induction with
  | ind j ih =>
    have hparent := sets.parent_point hlt.le j
    by_cases hji : j = i
    · subst j
      rw [if_pos rfl] at hparent
      rw [← root_parent, hparent, ih target hlt, hroot]
    · rw [if_neg hji] at hparent
      by_cases hself : sets.parent[j] = j
      · rw [root_of_parent_eq (hparent.trans hself), root_of_parent_eq hself]
      · have hbelow : sets.parent[j] < j := lt_of_le_of_ne (sets.parent_le j) hself
        rw [← root_parent, hparent, ih _ hbelow, root_parent]

/-- Pointing one root at another moves the class of the one to the other. -/
theorem root_point_of_roots (sets : DisjointSet n) {low high : Fin n} (hle : low ≤ high)
    (hlow : sets.root low = low) (hhigh : sets.root high = high) (j : Fin n) :
    (sets.point high low hle).root j = if sets.root j = high then low else sets.root j := by
  induction j using WellFoundedLT.induction with
  | ind j ih =>
    have hparent := sets.parent_point hle j
    by_cases hj : j = high
    · subst j
      rw [if_pos rfl] at hparent
      rw [if_pos hhigh]
      rcases hle.eq_or_lt with heq | hlt
      · rw [root_of_parent_eq (hparent.trans heq), heq]
      · rw [← root_parent, hparent, ih low hlt, hlow, if_neg hlt.ne]
    · rw [if_neg hj] at hparent
      by_cases hself : sets.parent[j] = j
      · rw [root_of_parent_eq (hparent.trans hself), root_of_parent_eq hself, if_neg hj]
      · have hbelow : sets.parent[j] < j := lt_of_le_of_ne (sets.parent_le j) hself
        rw [← root_parent, hparent, ih _ hbelow, root_parent]

/-- A look-up returns the root and changes none. -/
theorem find_spec (sets : DisjointSet n) (i : Fin n) :
    (sets.find i).1 = sets.root i ∧ ∀ j, (sets.find i).2.root j = sets.root j := by
  fun_induction find sets i with
  | case1 sets i h => exact ⟨(root_of_parent_eq h).symm, fun _ => rfl⟩
  | case2 sets i h grandparent hle ih =>
    have hlt : grandparent < i :=
      lt_of_le_of_lt (sets.parent_le _) (lt_of_le_of_ne (sets.parent_le i) h)
    have hroot : sets.root grandparent = sets.root i := by
      rw [show grandparent = sets.parent[sets.parent[i]] from rfl, root_parent, root_parent]
    have hkeep := sets.root_point_of_root_eq hlt hroot
    exact ⟨by rw [ih.1, hkeep, hroot], fun j => by rw [ih.2, hkeep]⟩

/-- A union gives the two joined classes the smaller of their roots and keeps every other root. -/
theorem root_union (sets : DisjointSet n) (a b j : Fin n) :
    (sets.union a b).root j =
      if sets.root j = sets.root a ∨ sets.root j = sets.root b
      then min (sets.root a) (sets.root b) else sets.root j := by
  obtain ⟨ha, hkeepA⟩ := sets.find_spec a
  obtain ⟨hb, hkeepB⟩ := (sets.find a).2.find_spec b
  have hb : ((sets.find a).2.find b).1 = sets.root b := hb.trans (hkeepA b)
  have hkeep (i : Fin n) : ((sets.find a).2.find b).2.root i = sets.root i :=
    (hkeepB i).trans (hkeepA i)
  simp only [union, ha, hb]
  split
  · next hle =>
    rw [root_point_of_roots _ hle (by rw [hkeep, root_root]) (by rw [hkeep, root_root]), hkeep,
      min_eq_left hle]
    grind
  · next hle =>
    rw [root_point_of_roots _ (le_of_not_ge hle) (by rw [hkeep, root_root])
      (by rw [hkeep, root_root]), hkeep, min_eq_right (le_of_not_ge hle)]
    grind

/-- Two numbers share a root after a union exactly when they did before or the union joins their
classes. -/
theorem root_union_eq_iff (sets : DisjointSet n) (a b i j : Fin n) :
    (sets.union a b).root i = (sets.union a b).root j ↔
      sets.root i = sets.root j ∨
        (sets.root i = sets.root a ∧ sets.root j = sets.root b) ∨
        (sets.root i = sets.root b ∧ sets.root j = sets.root a) := by
  rw [root_union, root_union]
  rcases le_total (sets.root a) (sets.root b) with h | h
  · rw [min_eq_left h]
    grind
  · rw [min_eq_right h]
    grind

/-- Before any union every number is its own root. -/
@[simp] theorem root_singletons (i : Fin n) : (singletons n).root i = i :=
  root_of_parent_eq (by simp [singletons])

/-- Changing the class of one of several different roots changes that class alone. -/
theorem modify_idxOf_map (classOf : Fin n → List (Fin n)) (change : List (Fin n) → List (Fin n))
    {roots : List (Fin n)} (hnodup : roots.Nodup) (root : Fin n) :
    (roots.map classOf).modify (roots.idxOf root) change =
      roots.map fun r => if r = root then change (classOf r) else classOf r := by
  induction roots with
  | nil => rfl
  | cons r rest ih =>
    obtain ⟨hr, hrest⟩ := List.nodup_cons.1 hnodup
    by_cases heq : r = root
    · subst heq
      have hothers : rest.map (fun s => if s = r then change (classOf s) else classOf s) =
          rest.map classOf :=
        List.map_congr_left fun s hs => if_neg fun (hsame : s = r) => hr (hsame ▸ hs)
      rw [List.idxOf_cons_self, List.map_cons, List.map_cons, hothers, if_pos rfl]
      rfl
    · rw [List.idxOf_cons_ne _ heq, List.map_cons, List.modify_succ_cons, ih hrest, List.map_cons,
        if_neg heq]

/-- The roots among some numbers. -/
def rootsOf (sets : DisjointSet n) (seen : List (Fin n)) : List (Fin n) :=
  seen.filter fun r => sets.root r = r

/-- The classes that some numbers make up, each number being behind its root. -/
def classesOf (sets : DisjointSet n) (seen : List (Fin n)) : List (List (Fin n)) :=
  (sets.rootsOf seen).map fun r => seen.filter fun i => sets.root i = r

/-- What the pass has gathered when it has met the numbers in `seen`. -/
structure Gathering.Holds (sets : DisjointSet n) (seen : List (Fin n)) (gathering : Gathering n) :
    Prop where
  root_eq : ∀ i, gathering.sets.root i = sets.root i
  classes_eq : gathering.classes = sets.classesOf seen
  /-- The slot of a root is the place of its class. -/
  slots_eq : ∀ r : Fin n, gathering.slots.get r =
    if r ∈ sets.rootsOf seen then some ((sets.rootsOf seen).idxOf r) else none

/-- Nothing is gathered before the pass. -/
theorem Gathering.holds_start (sets : DisjointSet n) : (Gathering.start sets).Holds sets [] where
  root_eq i := rfl
  classes_eq := rfl
  slots_eq r := by simp [start, rootsOf, Vector.get]

/-- The numbers in front of one of them are those below it. -/
theorem mem_iff_lt_of_finRange_eq {seen rest : List (Fin n)} {i : Fin n}
    (h : List.finRange n = seen ++ i :: rest) (j : Fin n) : j ∈ seen ↔ j < i := by
  have hsorted := List.pairwise_lt_finRange n
  have hmem : j ∈ seen ++ i :: rest := h ▸ List.mem_finRange j
  rw [h, List.pairwise_append, List.pairwise_cons] at hsorted
  obtain ⟨-, ⟨hrest, -⟩, hseen⟩ := hsorted
  refine ⟨fun hj => hseen j hj i List.mem_cons_self, fun hlt => ?_⟩
  rcases List.mem_append.1 hmem with hj | hj
  · exact hj
  · rcases List.mem_cons.1 hj with rfl | hj
    · exact absurd hlt (lt_irrefl j)
    · exact absurd hlt (hrest j hj).not_gt

section Add

variable {sets : DisjointSet n} {seen rest : List (Fin n)} {gathering : Gathering n} {i : Fin n}

/-- A number whose root has no class opens one. -/
theorem Gathering.add_of_none {root : Fin n} (hfind : (gathering.sets.find i).1 = root)
    (hslot : gathering.slots[root] = none) :
    gathering.add i =
      ⟨(gathering.sets.find i).2, gathering.slots.set root (some gathering.classes.length),
        gathering.classes ++ [[i]]⟩ := by
  subst hfind
  simp only [add, hslot]

/-- A number whose root has a class joins it. -/
theorem Gathering.add_of_some {root : Fin n} {slot : ℕ} (hfind : (gathering.sets.find i).1 = root)
    (hslot : gathering.slots[root] = some slot) :
    gathering.add i =
      ⟨(gathering.sets.find i).2, gathering.slots, gathering.classes.modify slot (· ++ [i])⟩ := by
  subst hfind
  simp only [add, hslot]

/-- A root joins the roots. -/
theorem rootsOf_append_of_root (hroot : sets.root i = i) :
    sets.rootsOf (seen ++ [i]) = sets.rootsOf seen ++ [i] := by
  simp [rootsOf, List.filter_append, hroot]

/-- Any other number leaves the roots as they are. -/
theorem rootsOf_append_of_ne (hroot : sets.root i ≠ i) :
    sets.rootsOf (seen ++ [i]) = sets.rootsOf seen := by
  simp [rootsOf, List.filter_append, hroot]

section Next

variable (hall : List.finRange n = seen ++ i :: rest)

include hall

/-- The next number is none of the roots so far. -/
theorem notMem_rootsOf : i ∉ sets.rootsOf seen := fun hi =>
  lt_irrefl i ((mem_iff_lt_of_finRange_eq hall i).1 (List.mem_filter.1 hi).1)

/-- A root makes up a class of its own. -/
theorem classesOf_append_of_root (hroot : sets.root i = i) :
    sets.classesOf (seen ++ [i]) = sets.classesOf seen ++ [[i]] := by
  -- a number of this set that was met before would lie below its root
  have hfirst : seen.filter (fun j => sets.root j = i) = [] := by
    simp only [List.filter_eq_nil_iff, decide_eq_true_eq]
    intro j hj heq
    exact (heq ▸ sets.root_le j).not_gt ((mem_iff_lt_of_finRange_eq hall j).1 hj)
  have hothers : (sets.rootsOf seen).map (fun r => (seen ++ [i]).filter fun j => sets.root j = r) =
      sets.classesOf seen := by
    refine List.map_congr_left fun r hr => ?_
    have hne : i ≠ r := fun heq => notMem_rootsOf hall (heq ▸ hr)
    simp [List.filter_append, hroot, hne]
  rw [classesOf, rootsOf_append_of_root hroot, List.map_append, hothers]
  simp [List.filter_append, hfirst, hroot]

/-- Any other number joins the class of its root. -/
theorem classesOf_append_of_ne (hroot : sets.root i ≠ i) :
    sets.classesOf (seen ++ [i]) =
      (sets.classesOf seen).modify ((sets.rootsOf seen).idxOf (sets.root i)) (· ++ [i]) := by
  have hnodup : (sets.rootsOf seen).Nodup := by
    have hnumbers := List.nodup_finRange n
    rw [hall] at hnumbers
    exact hnumbers.of_append_left.filter _
  rw [classesOf, classesOf, rootsOf_append_of_ne hroot]
  refine Eq.trans (List.map_congr_left fun r _ => ?_) (modify_idxOf_map _ _ hnodup _).symm
  by_cases heq : r = sets.root i
  · simp [heq, List.filter_append]
  · simp [heq, List.filter_append, Ne.symm heq]

/-- The first number of a set is its root and opens a class. -/
theorem Gathering.Holds.add_of_root (h : gathering.Holds sets seen) (hroot : sets.root i = i) :
    (gathering.add i).Holds sets (seen ++ [i]) := by
  have hnew : i ∉ sets.rootsOf seen := notMem_rootsOf hall
  obtain ⟨hfind, hkeep⟩ := gathering.sets.find_spec i
  rw [h.root_eq, hroot] at hfind
  have hslot : gathering.slots[i] = none := (h.slots_eq i).trans (if_neg hnew)
  rw [add_of_none hfind hslot]
  refine ⟨fun j => (hkeep j).trans (h.root_eq j), ?_, fun r => ?_⟩
  · rw [h.classes_eq, classesOf_append_of_root hall hroot]
  · have hlength : gathering.classes.length = (sets.rootsOf seen).length := by
      rw [h.classes_eq, classesOf, List.length_map]
    have hold : gathering.slots[r.val] = _ := h.slots_eq r
    change (gathering.slots.set i (some gathering.classes.length))[r.val] = _
    rw [Vector.getElem_set, hold, rootsOf_append_of_root hroot, hlength]
    by_cases heq : i = r
    · subst heq
      simp [List.idxOf_append_of_notMem hnew]
    · have hval : i.val ≠ r.val := fun h => heq (Fin.ext h)
      by_cases hr : r ∈ sets.rootsOf seen
      · simp [hval, hr, List.idxOf_append_of_mem hr]
      · simp [hval, hr, Ne.symm heq]

/-- A later number of a set joins the class of its root. -/
theorem Gathering.Holds.add_of_ne (h : gathering.Holds sets seen) (hroot : sets.root i ≠ i) :
    (gathering.add i).Holds sets (seen ++ [i]) := by
  have hmet : sets.root i ∈ sets.rootsOf seen := by
    have hlt : sets.root i < i := lt_of_le_of_ne (sets.root_le i) hroot
    exact List.mem_filter.2 ⟨(mem_iff_lt_of_finRange_eq hall _).2 hlt, by simp⟩
  obtain ⟨hfind, hkeep⟩ := gathering.sets.find_spec i
  rw [h.root_eq] at hfind
  have hslot : gathering.slots[sets.root i] = some ((sets.rootsOf seen).idxOf (sets.root i)) :=
    (h.slots_eq _).trans (if_pos hmet)
  rw [add_of_some hfind hslot]
  refine ⟨fun j => (hkeep j).trans (h.root_eq j), ?_, fun r => ?_⟩
  · rw [h.classes_eq, classesOf_append_of_ne hall hroot]
  · rw [rootsOf_append_of_ne hroot]
    exact h.slots_eq r

/-- Meeting one more number keeps what the pass has gathered. -/
theorem Gathering.Holds.add (h : gathering.Holds sets seen) :
    (gathering.add i).Holds sets (seen ++ [i]) := by
  by_cases hroot : sets.root i = i
  · exact h.add_of_root hall hroot
  · exact h.add_of_ne hall hroot

end Next

end Add

/-- The pass gathers all numbers. -/
theorem Gathering.Holds.foldl {sets : DisjointSet n} {seen rest : List (Fin n)}
    {gathering : Gathering n} (h : gathering.Holds sets seen)
    (hall : List.finRange n = seen ++ rest) :
    (rest.foldl Gathering.add gathering).Holds sets (List.finRange n) := by
  induction rest generalizing seen gathering with
  | nil =>
    rw [hall, List.append_nil]
    exact h
  | cons i rest ih =>
    exact ih (h.add hall) (by rw [hall, List.append_cons])

/-- The numbers with a given root, ascending. -/
def classOf (sets : DisjointSet n) (r : Fin n) : List (Fin n) :=
  (List.finRange n).filter fun i => sets.root i = r

/-- The classes are those of the roots, in the order of the roots. -/
theorem classes_eq_map (sets : DisjointSet n) :
    sets.classes = ((List.finRange n).filter fun r => sets.root r = r).map sets.classOf :=
  ((Gathering.holds_start sets).foldl rfl).classes_eq

/-- A number is in the class of its root. -/
theorem mem_classOf_iff (sets : DisjointSet n) (r i : Fin n) :
    i ∈ sets.classOf r ↔ sets.root i = r := by
  simp [classOf]

/-- Every listed class is the one of some root. -/
theorem mem_classes_iff (sets : DisjointSet n) (members : List (Fin n)) :
    members ∈ sets.classes ↔ ∃ r, sets.root r = r ∧ sets.classOf r = members := by
  simp [classes_eq_map]

/-- The class of a root starts with the root. -/
theorem head?_classOf {sets : DisjointSet n} {r : Fin n} (hr : sets.root r = r) :
    (sets.classOf r).head? = some r := by
  have hmem : r ∈ sets.classOf r := (sets.mem_classOf_iff r r).2 hr
  have hascending : (sets.classOf r).Pairwise (· < ·) := (List.pairwise_lt_finRange n).filter _
  cases hclass : sets.classOf r with
  | nil => simp [hclass] at hmem
  | cons first rest =>
    have hfirst : sets.root first = r := by
      rw [← sets.mem_classOf_iff, hclass]
      exact List.mem_cons_self
    have hle : r ≤ first := hfirst ▸ sets.root_le first
    rw [hclass, List.pairwise_cons] at hascending
    rw [hclass] at hmem
    rcases List.mem_cons.1 hmem with heq | hrest
    · rw [heq, List.head?_cons]
    · exact absurd (hascending.1 r hrest) hle.not_gt

/-- The classes are listed in the order of their first members. -/
theorem pairwise_head?_classes (sets : DisjointSet n) :
    sets.classes.Pairwise fun one two => one.head? < two.head? := by
  rw [classes_eq_map, List.pairwise_map]
  refine ((List.pairwise_lt_finRange n).filter _).imp_of_mem fun {r s} hr hs hlt => ?_
  have hr : sets.root r = r := by simpa using hr
  have hs : sets.root s = s := by simpa using hs
  rwa [head?_classOf hr, head?_classOf hs, Option.some_lt_some]

/-- The classes hold every number once. -/
theorem flatten_classes_perm (sets : DisjointSet n) :
    sets.classes.flatten.Perm (List.finRange n) := by
  have hnodup : sets.classes.flatten.Nodup := by
    rw [List.nodup_flatten]
    constructor
    · intro members hmembers
      obtain ⟨r, _, rfl⟩ := (sets.mem_classes_iff members).1 hmembers
      exact (List.nodup_finRange n).filter _
    · rw [classes_eq_map, List.pairwise_map]
      refine ((List.nodup_finRange n).filter _).imp fun {r s} hne => ?_
      intro i hr hs
      exact hne (((sets.mem_classOf_iff r i).1 hr).symm.trans ((sets.mem_classOf_iff s i).1 hs))
  refine (List.perm_ext_iff_of_nodup hnodup (List.nodup_finRange n)).2 fun i => ?_
  simp only [List.mem_flatten, List.mem_finRange, iff_true]
  exact ⟨sets.classOf (sets.root i), (sets.mem_classes_iff _).2 ⟨_, sets.root_root i, rfl⟩,
    (sets.mem_classOf_iff _ i).2 rfl⟩

end DisjointSet

/-- Ascending lists that hold every number below `n` once; two numbers are in one list exactly when
they are related. -/
structure IsPartitionBy {n : ℕ} (related : Fin n → Fin n → Prop)
    (classes : List (List (Fin n))) : Prop where
  nonempty : ∀ members ∈ classes, members ≠ []
  ascending : ∀ members ∈ classes, members.Pairwise (· < ·)
  perm : classes.flatten.Perm (List.finRange n)
  mem_iff : ∀ members ∈ classes, ∀ i ∈ members, ∀ j, j ∈ members ↔ related i j

/-- No class is listed twice. -/
theorem IsPartitionBy.nodup {n : ℕ} {related : Fin n → Fin n → Prop} {classes : List (List (Fin n))}
    (h : IsPartitionBy related classes) : classes.Nodup := by
  have hflat : classes.flatten.Nodup := h.perm.nodup_iff.2 (List.nodup_finRange n)
  apply (List.nodup_flatten.1 hflat).2.imp_of_mem
  intro one two hone _ hdisjoint heq
  obtain ⟨i, hi⟩ := List.exists_mem_of_ne_nil one (h.nonempty one hone)
  exact hdisjoint hi (heq ▸ hi)

/-- Two numbers are in one class exactly when they are related. -/
theorem IsPartitionBy.exists_mem_iff {n : ℕ} {related : Fin n → Fin n → Prop}
    {classes : List (List (Fin n))} (h : IsPartitionBy related classes) (i j : Fin n) :
    (∃ members ∈ classes, i ∈ members ∧ j ∈ members) ↔ related i j := by
  constructor
  · intro ⟨members, hmembers, hi, hj⟩
    exact (h.mem_iff members hmembers i hi j).1 hj
  · intro hij
    obtain ⟨members, hmembers, hi⟩ :=
      List.mem_flatten.1 (h.perm.mem_iff.2 (List.mem_finRange i))
    exact ⟨members, hmembers, hi, (h.mem_iff members hmembers i hi j).2 hij⟩

/-- The classes of a disjoint set part the numbers by their roots. -/
theorem DisjointSet.isPartitionBy_classes {n : ℕ} (sets : DisjointSet n) :
    IsPartitionBy (fun i j => sets.root i = sets.root j) sets.classes where
  nonempty members hmembers := by
    obtain ⟨r, hr, rfl⟩ := (sets.mem_classes_iff members).1 hmembers
    exact List.ne_nil_of_mem ((sets.mem_classOf_iff r r).2 hr)
  ascending members hmembers := by
    obtain ⟨r, _, rfl⟩ := (sets.mem_classes_iff members).1 hmembers
    exact (List.pairwise_lt_finRange n).filter _
  perm := sets.flatten_classes_perm
  mem_iff members hmembers i hi j := by
    obtain ⟨r, _, rfl⟩ := (sets.mem_classes_iff members).1 hmembers
    rw [mem_classOf_iff] at hi ⊢
    exact ⟨fun hj => hi.trans hj.symm, fun h => h.symm.trans hi⟩

end PatternTraversal
