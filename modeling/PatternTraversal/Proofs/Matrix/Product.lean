import PatternTraversal.Matrix.Semiring
import PatternTraversal.Proofs.Matrix.Entries

/-!
# Entries of products

A product of two matrices gathers one elementary product for each pair of entries that match, the
column of the left one being the row of the right one. A cell stores something when some pair falls
on it; over the semiring of smallest right factors it stores the smallest of them.
-/

namespace PatternTraversal

namespace SparseMatrix

namespace Semiring

/-- Gather products one after the other. -/
def gatherAll (ring : Semiring) (products : List UInt64) : Option UInt64 :=
  products.foldl (fun sum? product => ring.gather product sum?) none

/-- Once something is gathered there is a sum. -/
theorem isSome_foldl_gather (ring : Semiring) (products : List UInt64) (sum? : Option UInt64) :
    (products.foldl (fun sum? product => ring.gather product sum?) sum?).isSome ↔
      sum?.isSome ∨ products ≠ [] := by
  induction products generalizing sum? with
  | nil => simp
  | cons product rest ih =>
    rw [List.foldl_cons, ih]
    cases sum? <;> simp [gather]

/-- There is a sum when there are products. -/
theorem isSome_gatherAll (ring : Semiring) (products : List UInt64) :
    (ring.gatherAll products).isSome ↔ products ≠ [] := by
  simp [gatherAll, isSome_foldl_gather]

/-- The smaller of a sum and a product. -/
theorem foldl_gather_minSecond {products : List UInt64} {sum found : UInt64}
    (h : products.foldl (fun sum? product => gather .minSecond product sum?) (some sum) =
      some found) :
    (found = sum ∨ found ∈ products) ∧ found ≤ sum ∧ ∀ product ∈ products, found ≤ product := by
  induction products generalizing sum with
  | nil =>
    obtain rfl : sum = found := Option.some.inj h
    simp
  | cons product rest ih =>
    obtain ⟨hmem, hle, hall⟩ := ih h
    simp only [plus] at hmem hle
    by_cases hsum : sum ≤ product
    · rw [if_pos hsum] at hmem hle
      refine ⟨hmem.imp_right (List.mem_cons_of_mem _), hle, ?_⟩
      exact List.forall_mem_cons.2 ⟨UInt64.le_trans hle hsum, hall⟩
    · rw [if_neg hsum] at hmem hle
      refine ⟨.inr ?_, UInt64.le_trans hle (UInt64.le_of_lt (UInt64.not_le.1 hsum)), ?_⟩
      · rcases hmem with rfl | hmem
        · exact List.mem_cons_self
        · exact List.mem_cons_of_mem _ hmem
      · exact List.forall_mem_cons.2 ⟨hle, hall⟩

/-- The gathered smallest right factor is one of them and none is smaller. -/
theorem gatherAll_minSecond {products : List UInt64} {found : UInt64}
    (h : gatherAll .minSecond products = some found) :
    found ∈ products ∧ ∀ product ∈ products, found ≤ product := by
  cases products with
  | nil => simp [gatherAll] at h
  | cons product rest =>
    obtain ⟨hmem, hle, hall⟩ := foldl_gather_minSecond h
    exact ⟨List.mem_cons.2 hmem, List.forall_mem_cons.2 ⟨hle, hall⟩⟩

/-- Reachability products gather to one, whatever was gathered before. -/
theorem foldl_gather_anyPair {products : List UInt64} (h : ∀ product ∈ products, product = 1)
    {sum? : Option UInt64} (hsum : ∀ sum, sum? = some sum → sum = 1) {found : UInt64}
    (hfound : products.foldl (fun sum? product => gather .anyPair product sum?) sum? =
      some found) : found = 1 := by
  induction products generalizing sum? with
  | nil => exact hsum found hfound
  | cons product rest ih =>
    obtain ⟨hproduct, hrest⟩ := List.forall_mem_cons.1 h
    refine ih hrest (fun sum hgather => ?_) hfound
    cases sum? with
    | none => exact (Option.some.inj hgather).symm.trans hproduct
    | some known => exact (Option.some.inj hgather).symm

end Semiring

/-- Listing entries row by row, by column within a row. -/
theorem getD_foldr_alter (listed : List (Cell × UInt64)) (row : UInt64) :
    (listed.foldr (fun (cell, value) rows =>
        rows.alter cell.row fun known? => some ((cell.col, value) :: known?.getD []))
      (∅ : Std.ExtTreeMap UInt64 (List (UInt64 × UInt64)))).getD row [] =
      (listed.filter fun entry => entry.1.row = row).map fun entry => (entry.1.col, entry.2) := by
  induction listed with
  | nil => simp
  | cons entry rest ih =>
    obtain ⟨⟨i, j⟩, known⟩ := entry
    rw [List.foldr_cons, Std.ExtTreeMap.getD_alter]
    by_cases hrow : i = row
    · subst hrow
      simp [← Std.ExtTreeMap.getD_eq_getD_getElem?, ih]
    · simp [hrow, ih]

/-- The entries listed for a row are those of the matrix, in its order. -/
theorem getD_rowEntries (m : SparseMatrix) (row : UInt64) :
    m.rowEntries.getD row [] =
      (m.toList.filter fun entry => entry.1.row = row).map fun entry => (entry.1.col, entry.2) :=
  getD_foldr_alter m.toList row

/-- The entries listed for a row are those it stores. -/
theorem mem_rowEntries_iff {m : SparseMatrix} {row col value : UInt64} :
    (col, value) ∈ m.rowEntries.getD row [] ↔ m.get? row col = some value := by
  rw [getD_rowEntries]
  constructor
  · intro hmem
    obtain ⟨⟨⟨i, j⟩, known⟩, hentry, heq⟩ := List.mem_map.1 hmem
    obtain ⟨hentry, hrow⟩ := by simpa using hentry
    obtain ⟨rfl, rfl⟩ := Prod.mk.inj heq
    exact hrow ▸ mem_toList_iff.1 hentry
  · intro hvalue
    exact List.mem_map.2 ⟨(⟨row, col⟩, value), by simpa using mem_toList_iff.2 hvalue, rfl⟩

/-- Products of the matching entries of two matrices, with the cells they fall on. -/
def products (ring : Semiring) (left right : SparseMatrix) : List (Cell × UInt64) :=
  left.toList.flatMap fun entry =>
    (right.rowEntries.getD entry.1.col []).map fun factor =>
      (⟨entry.1.row, factor.1⟩, ring.times entry.2 factor.2)

/-- The products that fall on a cell. -/
def productsOn (ring : Semiring) (left right : SparseMatrix) (cell : Cell) : List UInt64 :=
  ((products ring left right).filter fun product => product.1 = cell).map Prod.snd

variable {ring : Semiring} {left right product : SparseMatrix}

/-- What falls on a cell: one product for each entry of the left row that meets one of the right
column. -/
theorem mem_productsOn_iff {row col value : UInt64} :
    value ∈ productsOn ring left right ⟨row, col⟩ ↔
      ∃ k l r, left.get? row k = some l ∧ right.get? k col = some r ∧ ring.times l r = value := by
  simp only [productsOn, products, List.mem_map, List.mem_filter, List.mem_flatMap,
    decide_eq_true_eq]
  constructor
  · rintro ⟨_, ⟨⟨⟨⟨i, k⟩, l⟩, hl, ⟨j, r⟩, hr, rfl⟩, hcell⟩, rfl⟩
    obtain ⟨rfl, rfl⟩ := Cell.mk.inj hcell
    exact ⟨k, l, r, mem_toList_iff.1 hl, mem_rowEntries_iff.1 hr, rfl⟩
  · rintro ⟨k, l, r, hl, hr, rfl⟩
    exact ⟨(⟨row, col⟩, ring.times l r), ⟨⟨(⟨row, k⟩, l), mem_toList_iff.2 hl, (col, r),
      mem_rowEntries_iff.2 hr, rfl⟩, rfl⟩, rfl⟩

/-- Matrices multiply exactly when the columns of the left one are the rows of the right one. -/
theorem multiply_eq_ok (h : left.cols = right.rows) :
    ∃ product, multiply ring left right = .ok product :=
  ⟨_, if_pos h⟩

/-- A cell of a product stores what the products that fall on it gather. -/
theorem get?_multiply (h : multiply ring left right = .ok product) (row col : UInt64) :
    product.get? row col = ring.gatherAll (productsOn ring left right ⟨row, col⟩) := by
  unfold multiply at h
  split at h
  · obtain rfl := Except.ok.inj h
    have hentries : (left.toList.foldl (fun entries (cell, value) =>
        addProducts ring cell.row value entries (right.rowEntries.getD cell.col [])) ∅) =
        (products ring left right).foldl
          (fun entries product => entries.alter product.1 (ring.gather product.2)) ∅ := by
      simp only [products, List.foldl_flatMap, List.foldl_map, addProducts]
    rw [get?, hentries, getElem?_foldl_alter, productsOn, Semiring.gatherAll, List.foldl_map,
      Std.ExtTreeMap.getElem?_empty]
  · cases h

/-- A product stores a value where some entry of the left row meets one of the right column. -/
theorem stores_multiply_iff (h : multiply ring left right = .ok product) (row col : UInt64) :
    product.Stores row col ↔ ∃ k, left.Stores row k ∧ right.Stores k col := by
  rw [Stores, get?_multiply h, Semiring.isSome_gatherAll]
  constructor
  · intro hne
    obtain ⟨value, hvalue⟩ := List.exists_mem_of_ne_nil _ hne
    obtain ⟨k, l, r, hl, hr, -⟩ := mem_productsOn_iff.1 hvalue
    exact ⟨k, Option.isSome_of_mem hl, Option.isSome_of_mem hr⟩
  · rintro ⟨k, hl, hr⟩
    obtain ⟨l, hl⟩ := Option.isSome_iff_exists.1 hl
    obtain ⟨r, hr⟩ := Option.isSome_iff_exists.1 hr
    exact List.ne_nil_of_mem (mem_productsOn_iff.2 ⟨k, l, r, hl, hr, rfl⟩)

/-- The product of square matrices is square. -/
theorem IsSquare.multiply {n : UInt64} (hleft : left.IsSquare n) (hright : right.IsSquare n)
    (h : SparseMatrix.multiply ring left right = .ok product) : product.IsSquare n := by
  obtain ⟨hrows, hcols⟩ := shape_of_multiply h
  refine ⟨hrows.trans hleft.rows_eq, hcols.trans hright.cols_eq, fun cell hcell => ?_⟩
  obtain ⟨k, hl, hr⟩ :=
    (stores_multiply_iff h cell.row cell.col).1 ((stores_iff_mem _ _).2 hcell)
  rw [hrows, hcols, hleft.rows_eq, hright.cols_eq]
  exact ⟨(hleft.lt_of_stores hl).1, (hright.lt_of_stores hr).2⟩

/-- A matrix that stores ones only. -/
def IsPattern (m : SparseMatrix) : Prop := ∀ row col, m.Stores row col → m.get? row col = some 1

/-- Patterns of one shape that store values in the same cells are equal. -/
theorem IsPattern.eq_of_stores (hleft : left.IsPattern) (hright : right.IsPattern)
    (hrows : left.rows = right.rows) (hcols : left.cols = right.cols)
    (hstores : ∀ row col, left.Stores row col ↔ right.Stores row col) : left = right := by
  refine ext_get? hrows hcols fun row col => ?_
  by_cases h : left.Stores row col
  · rw [hleft row col h, hright row col ((hstores row col).1 h)]
  · have hnot : ¬ right.Stores row col := fun hr => h ((hstores row col).2 hr)
    rw [Stores, Option.not_isSome_iff_eq_none] at h hnot
    rw [h, hnot]

/-- Transposing keeps a pattern. -/
theorem IsPattern.transpose (h : left.IsPattern) : left.transpose.IsPattern := by
  intro row col hstores
  rw [get?_transpose]
  exact h col row ((stores_transpose left row col).1 hstores)

/-- A product over reachability is a pattern. -/
theorem isPattern_of_multiply (h : multiply .anyPair left right = .ok product) :
    product.IsPattern := by
  intro row col hstores
  obtain ⟨value, hvalue⟩ := Option.isSome_iff_exists.1 hstores
  rw [get?_multiply h] at hvalue ⊢
  have hones : ∀ one ∈ productsOn .anyPair left right ⟨row, col⟩, one = 1 := by
    intro one hone
    obtain ⟨_, _, _, _, _, rfl⟩ := mem_productsOn_iff.1 hone
    rfl
  rw [hvalue, Semiring.foldl_gather_anyPair hones (by simp) hvalue]

/-- A cell of a product over the smallest right factors stores the smallest one that meets an entry
of its row. -/
theorem get?_multiply_minSecond (h : multiply .minSecond left right = .ok product)
    {row col value : UInt64} (hvalue : product.get? row col = some value) :
    (∃ k, left.Stores row k ∧ right.get? k col = some value) ∧
      ∀ k r, left.Stores row k → right.get? k col = some r → value ≤ r := by
  rw [get?_multiply h] at hvalue
  obtain ⟨hmem, hle⟩ := Semiring.gatherAll_minSecond hvalue
  obtain ⟨k, l, r, hl, hr, rfl⟩ := mem_productsOn_iff.1 hmem
  refine ⟨⟨k, Option.isSome_of_mem hl, hr⟩, fun k r hl hr => ?_⟩
  obtain ⟨l, hl⟩ := Option.isSome_iff_exists.1 hl
  exact hle r (mem_productsOn_iff.2 ⟨k, l, r, hl, hr, rfl⟩)

end SparseMatrix

end PatternTraversal
