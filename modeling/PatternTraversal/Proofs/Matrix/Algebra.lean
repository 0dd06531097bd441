import PatternTraversal.Proofs.Matrix.SemiringProduct

/-!
# Algebra of the product

The semirings differ in what they compute and agree in their laws: sums commute and associate,
products associate, and products distribute over sums from either side. So a cell of a product of
three matrices gathers one elementary product for every way from its row to its column through two
inner numbers, whichever two matrices are multiplied first; the grouping decides only about the
order of the ways. Where elementary products commute as well, transposing a product exchanges its
factors.
-/

namespace PatternTraversal

namespace SparseMatrix

namespace Semiring

variable (ring : Semiring)

/-- Sums do not depend on their order. -/
theorem plus_comm (one two : UInt64) : ring.plus one two = ring.plus two one := by
  cases ring with
  | anyPair => rfl
  | plusTimes => exact UInt64.add_comm one two
  | minSecond => grind [plus]

/-- Sums do not depend on their grouping. -/
theorem plus_assoc (one two three : UInt64) :
    ring.plus (ring.plus one two) three = ring.plus one (ring.plus two three) := by
  cases ring with
  | anyPair => rfl
  | plusTimes => exact UInt64.add_assoc one two three
  | minSecond => grind [plus]

/-- Products do not depend on their grouping. -/
theorem times_assoc (one two three : UInt64) :
    ring.times (ring.times one two) three = ring.times one (ring.times two three) := by
  cases ring with
  | anyPair => rfl
  | plusTimes => exact UInt64.mul_assoc one two three
  | minSecond => rfl

/-- A product with a sum on the right is a sum of products. -/
theorem times_plus (left one two : UInt64) :
    ring.times left (ring.plus one two) =
      ring.plus (ring.times left one) (ring.times left two) := by
  cases ring with
  | anyPair => rfl
  | plusTimes => exact UInt64.mul_add
  | minSecond => rfl

/-- A product with a sum on the left is a sum of products; over the smallest right factors both
of them are the same. -/
theorem plus_times (one two right : UInt64) :
    ring.times (ring.plus one two) right =
      ring.plus (ring.times one right) (ring.times two right) := by
  cases ring with
  | anyPair => rfl
  | plusTimes => exact UInt64.add_mul
  | minSecond => simp [times, plus]

/-- Products do not depend on their order, unless they are their right factors. -/
theorem times_comm {ring : Semiring} (h : ring ≠ .minSecond) (left right : UInt64) :
    ring.times left right = ring.times right left := by
  cases ring with
  | anyPair => rfl
  | plusTimes => exact UInt64.mul_comm left right
  | minSecond => exact absurd rfl h

instance instAssociativePlus : Std.Associative ring.plus := ⟨ring.plus_assoc⟩

instance instCommutativePlus : Std.Commutative ring.plus := ⟨ring.plus_comm⟩

/-- Gathering one more product adds it to what there is. -/
theorem gather_eq_merge (product : UInt64) (sum? : Option UInt64) :
    ring.gather product sum? = Option.merge ring.plus sum? (some product) := by
  cases sum? <;> rfl

/-- Gathering more products adds their sum to what there is. -/
theorem foldl_gather_eq_merge (products : List UInt64) (sum? : Option UInt64) :
    products.foldl (fun sum? product => ring.gather product sum?) sum? =
      Option.merge ring.plus sum? (ring.gatherAll products) := by
  induction products generalizing sum? with
  | nil => cases sum? <;> rfl
  | cons product rest ih =>
    rw [gatherAll, List.foldl_cons, List.foldl_cons, ih, ih (ring.gather product none),
      gather_eq_merge, gather_eq_merge, Option.merge_none_left]
    ac_rfl

/-- Gathering in steps: the first product is added to what the others gather. -/
theorem gatherAll_cons (product : UInt64) (rest : List UInt64) :
    ring.gatherAll (product :: rest) =
      Option.merge ring.plus (some product) (ring.gatherAll rest) :=
  ring.foldl_gather_eq_merge rest (some product)

/-- What two lists of products gather in a row. -/
theorem gatherAll_append (one two : List UInt64) :
    ring.gatherAll (one ++ two) =
      Option.merge ring.plus (ring.gatherAll one) (ring.gatherAll two) := by
  rw [gatherAll, List.foldl_append, foldl_gather_eq_merge ring two]
  rfl

/-- The order of the products is no matter of what they gather. -/
theorem gatherAll_perm {one two : List UInt64} (h : one.Perm two) :
    ring.gatherAll one = ring.gatherAll two := by
  refine h.foldl_eq' (fun a _ b _ sum? => ?_) none
  simp only [gather_eq_merge]
  ac_rfl

/-- Sums of parts gather what the parts hold. -/
theorem gatherAll_flatMap {ι : Type} {indices : List ι} {sum : ι → UInt64}
    {parts : ι → List UInt64} (h : ∀ i ∈ indices, ring.gatherAll (parts i) = some (sum i)) :
    ring.gatherAll (indices.flatMap parts) = ring.gatherAll (indices.map sum) := by
  induction indices with
  | nil => rfl
  | cons i rest ih =>
    rw [List.forall_mem_cons] at h
    rw [List.flatMap_cons, List.map_cons, gatherAll_append, gatherAll_cons, h.1, ih h.2]

/-- What distributes over sums of two distributes over all that is gathered. -/
theorem gatherAll_map {f : UInt64 → UInt64}
    (hf : ∀ one two, f (ring.plus one two) = ring.plus (f one) (f two)) (products : List UInt64) :
    ring.gatherAll (products.map f) = (ring.gatherAll products).map f := by
  induction products with
  | nil => rfl
  | cons product rest ih =>
    rw [List.map_cons, gatherAll_cons, gatherAll_cons, ih]
    cases ring.gatherAll rest with
    | none => rfl
    | some sum => exact congrArg some (hf product sum).symm

end Semiring

variable {ring : Semiring} {a b c ab bc product : SparseMatrix}

/-- A cell of a product gathers one elementary product for every meeting of its row and column. -/
theorem get?_multiply_eq_gatherAll (h : multiply ring a b = .ok product) (row col : UInt64) :
    product.get? row col = ring.gatherAll ((meetings a b row col).map fun k =>
      ring.times ((a.get? row k).getD 0) ((b.get? k col).getD 0)) := by
  rw [get?_multiply h, productsOn_eq_map_meetings]

/-- Where a row and a column meet, the product stores what the meetings gather. -/
theorem gatherAll_meetings (h : multiply ring a b = .ok product) {row col : UInt64}
    (hstores : product.Stores row col) :
    ring.gatherAll ((meetings a b row col).map fun k =>
      ring.times ((a.get? row k).getD 0) ((b.get? k col).getD 0)) =
        some ((product.get? row col).getD 0) := by
  obtain ⟨value, hvalue⟩ := Option.isSome_iff_exists.1 hstores
  rw [← get?_multiply_eq_gatherAll h, hvalue, Option.getD_some]

/-! ## Ways through three matrices -/

/-- Two inner numbers lead from a row of the first matrix through the second one to a column of the
third one. -/
def IsWay (a b c : SparseMatrix) (row col : UInt64) (way : UInt64 × UInt64) : Prop :=
  a.Stores row way.1 ∧ b.Stores way.1 way.2 ∧ c.Stores way.2 col

/-- The elementary product of the three entries on a way. -/
def alongWay (ring : Semiring) (a b c : SparseMatrix) (row col : UInt64)
    (way : UInt64 × UInt64) : UInt64 :=
  ring.times ((a.get? row way.1).getD 0)
    (ring.times ((b.get? way.1 way.2).getD 0) ((c.get? way.2 col).getD 0))

/-- Lists without duplicates that each carry their own key hold no duplicates in a row. -/
theorem nodup_flatMap_of_key {ι κ : Type} {indices : List ι} (hindices : indices.Nodup)
    {parts : ι → List κ} (hparts : ∀ i ∈ indices, (parts i).Nodup) (key : κ → ι)
    (hkey : ∀ i ∈ indices, ∀ x ∈ parts i, key x = i) : (indices.flatMap parts).Nodup := by
  rw [List.nodup_flatMap]
  refine ⟨hparts, hindices.imp_of_mem fun {i j} hi hj hne x hxi hxj => hne ?_⟩
  rw [← hkey i hi x hxi, hkey j hj x hxj]

/-- Ways listed by their second number first: the meetings of the product of the first two matrices
with the third one. -/
def waysLeft (a b c ab : SparseMatrix) (row col : UInt64) : List (UInt64 × UInt64) :=
  (meetings ab c row col).flatMap fun l => (meetings a b row l).map (·, l)

/-- Ways listed by their first number first: the meetings of the first matrix with the product of
the last two. -/
def waysRight (a b c bc : SparseMatrix) (row col : UInt64) : List (UInt64 × UInt64) :=
  (meetings a bc row col).flatMap fun k => (meetings b c k col).map (k, ·)

/-- Multiplying the first two matrices first meets every way once. -/
theorem mem_waysLeft_iff (hab : multiply ring a b = .ok ab) (row col : UInt64)
    (way : UInt64 × UInt64) : way ∈ waysLeft a b c ab row col ↔ IsWay a b c row col way := by
  obtain ⟨k, l⟩ := way
  simp only [waysLeft, List.mem_flatMap, List.mem_map, mem_meetings_iff,
    stores_multiply_iff hab, IsWay]
  constructor
  · rintro ⟨_, ⟨-, hc⟩, _, ⟨ha, hb⟩, heq⟩
    obtain ⟨rfl, rfl⟩ := Prod.mk.inj heq
    exact ⟨ha, hb, hc⟩
  · intro ⟨ha, hb, hc⟩
    exact ⟨l, ⟨⟨k, ha, hb⟩, hc⟩, k, ⟨ha, hb⟩, rfl⟩

/-- Multiplying the last two matrices first meets every way once. -/
theorem mem_waysRight_iff (hbc : multiply ring b c = .ok bc) (row col : UInt64)
    (way : UInt64 × UInt64) : way ∈ waysRight a b c bc row col ↔ IsWay a b c row col way := by
  obtain ⟨k, l⟩ := way
  simp only [waysRight, List.mem_flatMap, List.mem_map, mem_meetings_iff,
    stores_multiply_iff hbc, IsWay]
  constructor
  · rintro ⟨_, ⟨ha, -⟩, _, ⟨hb, hc⟩, heq⟩
    obtain ⟨rfl, rfl⟩ := Prod.mk.inj heq
    exact ⟨ha, hb, hc⟩
  · intro ⟨ha, hb, hc⟩
    exact ⟨k, ⟨ha, l, hb, hc⟩, l, ⟨hb, hc⟩, rfl⟩

/-- Both groupings meet the same ways. -/
theorem waysLeft_perm_waysRight (hab : multiply ring a b = .ok ab)
    (hbc : multiply ring b c = .ok bc) (row col : UInt64) :
    (waysLeft a b c ab row col).Perm (waysRight a b c bc row col) := by
  -- each part of either list is marked by one of the two numbers of its ways
  have hleft : (waysLeft a b c ab row col).Nodup :=
    nodup_flatMap_of_key (nodup_meetings ab c row col)
      (fun l _ => (nodup_meetings a b row l).map fun _ _ h => (Prod.mk.inj h).1) Prod.snd
      (by simp +contextual)
  have hright : (waysRight a b c bc row col).Nodup :=
    nodup_flatMap_of_key (nodup_meetings a bc row col)
      (fun k _ => (nodup_meetings b c k col).map fun _ _ h => (Prod.mk.inj h).2) Prod.fst
      (by simp +contextual)
  refine (List.perm_ext_iff_of_nodup hleft hright).2 fun way => ?_
  rw [mem_waysLeft_iff hab, mem_waysRight_iff hbc]

/-- A cell of a product whose left factor is a product gathers along the ways. -/
theorem get?_multiply_left (hab : multiply ring a b = .ok ab)
    (h : multiply ring ab c = .ok product) (row col : UInt64) :
    product.get? row col =
      ring.gatherAll ((waysLeft a b c ab row col).map (alongWay ring a b c row col)) := by
  rw [get?_multiply_eq_gatherAll h, waysLeft, List.map_flatMap]
  refine (ring.gatherAll_flatMap fun l hl => ?_).symm
  -- the products that end alike have their right factor in common
  have hparts : ((meetings a b row l).map (·, l)).map (alongWay ring a b c row col) =
      ((meetings a b row l).map fun k =>
        ring.times ((a.get? row k).getD 0) ((b.get? k l).getD 0)).map
          (ring.times · ((c.get? l col).getD 0)) := by
    simp only [List.map_map, Function.comp_def, alongWay, ring.times_assoc]
  rw [hparts, ring.gatherAll_map fun one two => ring.plus_times one two _,
    gatherAll_meetings hab (mem_meetings_iff.1 hl).1, Option.map_some]

/-- A cell of a product whose right factor is a product gathers along the ways. -/
theorem get?_multiply_right (hbc : multiply ring b c = .ok bc)
    (h : multiply ring a bc = .ok product) (row col : UInt64) :
    product.get? row col =
      ring.gatherAll ((waysRight a b c bc row col).map (alongWay ring a b c row col)) := by
  rw [get?_multiply_eq_gatherAll h, waysRight, List.map_flatMap]
  refine (ring.gatherAll_flatMap fun k hk => ?_).symm
  -- the products that start alike have their left factor in common
  have hparts : ((meetings b c k col).map (k, ·)).map (alongWay ring a b c row col) =
      ((meetings b c k col).map fun l =>
        ring.times ((b.get? k l).getD 0) ((c.get? l col).getD 0)).map
          (ring.times ((a.get? row k).getD 0)) := by
    simp only [List.map_map, Function.comp_def, alongWay]
  rw [hparts, ring.gatherAll_map fun one two => ring.times_plus _ one two,
    gatherAll_meetings hbc (mem_meetings_iff.1 hk).2, Option.map_some]

/-- Which two of three matrices are multiplied first is no matter of the product. -/
theorem eq_of_multiply_multiply {left right : SparseMatrix} (hab : multiply ring a b = .ok ab)
    (hbc : multiply ring b c = .ok bc) (hleft : multiply ring ab c = .ok left)
    (hright : multiply ring a bc = .ok right) : left = right := by
  have hrows : left.rows = right.rows := by
    rw [(shape_of_multiply hleft).1, (shape_of_multiply hab).1, (shape_of_multiply hright).1]
  have hcols : left.cols = right.cols := by
    rw [(shape_of_multiply hleft).2, (shape_of_multiply hright).2, (shape_of_multiply hbc).2]
  refine ext_get? hrows hcols fun row col => ?_
  rw [get?_multiply_left hab hleft, get?_multiply_right hbc hright]
  exact ring.gatherAll_perm ((waysLeft_perm_waysRight hab hbc row col).map _)

/-! ## Transposed products -/

/-- Exchanged, a row and a column meet where they met before. -/
theorem meetings_transpose_perm (a b : SparseMatrix) (row col : UInt64) :
    (meetings b.transpose a.transpose row col).Perm (meetings a b col row) := by
  refine (List.perm_ext_iff_of_nodup (nodup_meetings _ _ row col)
    (nodup_meetings a b col row)).2 fun k => ?_
  rw [mem_meetings_iff, mem_meetings_iff, stores_transpose, stores_transpose, and_comm]

/-- Where elementary products commute, the transpose of a product is the product of the transposes
in the other order. -/
theorem multiply_transpose (hring : ring ≠ .minSecond) (hshape : a.cols = b.rows)
    (hab : multiply ring a b = .ok ab) :
    multiply ring b.transpose a.transpose = .ok ab.transpose := by
  obtain ⟨product, hproduct⟩ : ∃ product, multiply ring b.transpose a.transpose = .ok product :=
    multiply_eq_ok hshape.symm
  have heq : product = ab.transpose := by
    refine ext_get? ?_ ?_ fun row col => ?_
    · exact (shape_of_multiply hproduct).1.trans (shape_of_multiply hab).2.symm
    · exact (shape_of_multiply hproduct).2.trans (shape_of_multiply hab).1.symm
    · rw [get?_multiply_eq_gatherAll hproduct, get?_transpose, get?_multiply_eq_gatherAll hab,
        ← ring.gatherAll_perm ((meetings_transpose_perm a b row col).map _)]
      simp only [get?_transpose, Semiring.times_comm hring]
  rw [hproduct, heq]

/-- Over every semiring, three matrices whose shapes fit have one product, pattern and values,
whichever two are multiplied first. Over reachability and over arithmetic the transpose of a product
is the product of the transposes in the other order. -/
theorem multiply_assoc_transpose (ring : Semiring) (a b c : SparseMatrix) :
    (a.cols = b.rows → b.cols = c.rows → ∃ ab bc product,
      multiply ring a b = .ok ab ∧ multiply ring b c = .ok bc ∧
        multiply ring ab c = .ok product ∧ multiply ring a bc = .ok product) ∧
    (ring ≠ .minSecond → a.cols = b.rows → ∃ ab,
      multiply ring a b = .ok ab ∧ multiply ring b.transpose a.transpose = .ok ab.transpose) := by
  constructor
  · intro habShape hbcShape
    obtain ⟨ab, hab⟩ : ∃ ab, multiply ring a b = .ok ab := multiply_eq_ok habShape
    obtain ⟨bc, hbc⟩ : ∃ bc, multiply ring b c = .ok bc := multiply_eq_ok hbcShape
    obtain ⟨left, hleft⟩ : ∃ left, multiply ring ab c = .ok left :=
      multiply_eq_ok ((shape_of_multiply hab).2.trans hbcShape)
    obtain ⟨right, hright⟩ : ∃ right, multiply ring a bc = .ok right :=
      multiply_eq_ok (habShape.trans (shape_of_multiply hbc).1.symm)
    have heq : left = right := eq_of_multiply_multiply hab hbc hleft hright
    exact ⟨ab, bc, left, hab, hbc, hleft, heq ▸ hright⟩
  · intro hring hshape
    obtain ⟨ab, hab⟩ : ∃ ab, multiply ring a b = .ok ab := multiply_eq_ok hshape
    exact ⟨ab, hab, multiply_transpose hring hshape hab⟩

/-- One way wraps to a multiple of the size of a word and one leads over a stored zero. -/
theorem multiply_assoc_transpose_wrapping :
    let a : SparseMatrix :=
      ⟨1, 2, .ofList [((⟨0, 0⟩, 0x8000000000000000) : Cell × UInt64), (⟨0, 1⟩, 3)]⟩
    let b : SparseMatrix :=
      ⟨2, 2, .ofList [((⟨0, 0⟩, 2) : Cell × UInt64), (⟨0, 1⟩, 0), (⟨1, 0⟩, 5)]⟩
    let c : SparseMatrix := ⟨2, 1, .ofList [((⟨0, 0⟩, 7) : Cell × UInt64), (⟨1, 0⟩, 1)]⟩
    a.cols = b.rows ∧ b.cols = c.rows ∧ Semiring.plusTimes ≠ .minSecond ∧
      (∃ ab bc product, multiply .plusTimes a b = .ok ab ∧ multiply .plusTimes b c = .ok bc ∧
        multiply .plusTimes ab c = .ok product ∧ multiply .plusTimes a bc = .ok product ∧
        ab.get? 0 1 = some 0 ∧ bc.get? 0 0 = some 14 ∧ product.get? 0 0 = some 105) ∧
      ∃ ab, multiply .plusTimes a b = .ok ab ∧
        multiply .plusTimes b.transpose a.transpose = .ok ab.transpose := by
  intro a b c
  obtain ⟨hassoc, htranspose⟩ := multiply_assoc_transpose .plusTimes a b c
  obtain ⟨ab, bc, product, hab, hbc, hleft, hright⟩ := hassoc rfl rfl
  have hzero : (multiply .plusTimes a b).toOption.bind (·.get? 0 1) = some 0 := by decide +kernel
  have hinner : (multiply .plusTimes b c).toOption.bind (·.get? 0 0) = some 14 := by
    decide +kernel
  have hvalue : ((multiply .plusTimes a b).bind (multiply .plusTimes · c)).toOption.bind
      (·.get? 0 0) = some 105 := by decide +kernel
  rw [hab] at hzero
  rw [hbc] at hinner
  rw [hab, Except.bind, hleft] at hvalue
  exact ⟨rfl, rfl, by decide, ⟨ab, bc, product, hab, hbc, hleft, hright, hzero, hinner, hvalue⟩,
    htranspose (by decide) rfl⟩

/-- Right factors do not commute: here the transposed product stores `2` and the exchanged one
`1`. -/
example :
    let a : SparseMatrix := ⟨1, 1, .ofList [((⟨0, 0⟩, 1) : Cell × UInt64)]⟩
    let b : SparseMatrix := ⟨1, 1, .ofList [((⟨0, 0⟩, 2) : Cell × UInt64)]⟩
    multiply .minSecond b.transpose a.transpose ≠
      (multiply .minSecond a b).map SparseMatrix.transpose := by
  decide +kernel

end SparseMatrix

end PatternTraversal
