import Mathlib.Algebra.BigOperators.Group.Finset.Basic
import Mathlib.Algebra.BigOperators.Ring.List
import Mathlib.Algebra.GroupWithZero.Nat
import Mathlib.Order.Bounds.Basic
import PatternTraversal.Proofs.Matrix.Product

/-!
# Products over semirings

A row of the left matrix and a column of the right one meet at each number where both store an
entry, whatever the entries are. The product stores a value exactly where row and column meet, and
the value is what the semiring makes of all the meetings, in no particular order: each of them
contributes one elementary product.
-/

namespace PatternTraversal

namespace SparseMatrix

/-- The value that a semiring makes of the meetings of a row with a column. -/
def Semiring.Combines (ring : Semiring) (left right : SparseMatrix) (row col value : UInt64) :
    Prop :=
  match ring with
  | anyPair => value = 1
  | plusTimes =>
    ∃ meets : Finset UInt64, (∀ k, k ∈ meets ↔ left.Stores row k ∧ right.Stores k col) ∧
      value.toNat = (∑ k ∈ meets,
        ((left.get? row k).getD 0).toNat * ((right.get? k col).getD 0).toNat) % 2 ^ 64
  | minSecond => IsLeast {found | ∃ k, left.Stores row k ∧ right.get? k col = some found} value

/-- A matrix that is the product of two others over a semiring. -/
structure IsProduct (ring : Semiring) (left right product : SparseMatrix) : Prop where
  rows_eq : product.rows = left.rows
  cols_eq : product.cols = right.cols
  inBounds : product.InBounds
  stores_iff : ∀ row col, product.Stores row col ↔ ∃ k, left.Stores row k ∧ right.Stores k col
  combines : ∀ row col value, product.get? row col = some value →
    ring.Combines left right row col value

variable {ring : Semiring} {left right product : SparseMatrix}

/-- Numbers at which a row of the left matrix and a column of the right one both store an entry. -/
def meetings (left right : SparseMatrix) (row col : UInt64) : List UInt64 :=
  (left.toList.filter fun entry => entry.1.row = row ∧ right.Stores entry.1.col col).map
    fun entry => entry.1.col

/-- Row and column meet where both store an entry. -/
theorem mem_meetings_iff {row col k : UInt64} :
    k ∈ meetings left right row col ↔ left.Stores row k ∧ right.Stores k col := by
  rw [meetings, List.mem_map]
  constructor
  · rintro ⟨⟨⟨i, j⟩, value⟩, hentry, rfl⟩
    obtain ⟨hmem, hrow, hright⟩ := by simpa using hentry
    exact ⟨hrow ▸ Option.isSome_of_mem (mem_toList_iff.1 hmem), hright⟩
  · rintro ⟨hleft, hright⟩
    obtain ⟨value, hvalue⟩ := Option.isSome_iff_exists.1 hleft
    exact ⟨(⟨row, k⟩, value), by simpa [hright] using mem_toList_iff.2 hvalue, rfl⟩

/-- Each number is listed once. -/
theorem nodup_meetings (left right : SparseMatrix) (row col : UInt64) :
    (meetings left right row col).Nodup := by
  rw [meetings, List.Nodup, List.pairwise_map]
  refine List.Pairwise.imp_of_mem (fun {a b} ha hb hne hcol => hne ?_)
    (List.Pairwise.filter _ Std.ExtTreeMap.distinct_keys_toList)
  simp only [List.mem_filter, decide_eq_true_eq] at ha hb
  have heq : a.1 = b.1 := congrArg₂ Cell.mk (ha.2.1.trans hb.2.1.symm) hcol
  exact heq ▸ Std.ReflCmp.compare_self

/-- Of the entries listed for a row, at most one is in a column. -/
theorem filter_rowEntries (m : SparseMatrix) (row col : UInt64) :
    (m.rowEntries.getD row []).filter (fun factor => factor.1 = col) =
      ((m.get? row col).map (col, ·)).toList := by
  have hcell : m.toList.filter (fun entry => decide (entry.1.col = col) &&
      decide (entry.1.row = row)) = m.toList.filter (fun entry => entry.1 = ⟨row, col⟩) :=
    List.filter_congr fun ⟨⟨i, j⟩, _⟩ _ => by simp [Bool.and_comm]
  rw [getD_rowEntries, List.filter_map, List.filter_filter]
  simp only [Function.comp_def]
  rw [hcell, filter_toList]
  cases m.get? row col <;> rfl

/-- An entry of the left row contributes the product with the entry it meets, if it meets one. -/
theorem productsOn_eq_filterMap (ring : Semiring) (left right : SparseMatrix) (row col : UInt64) :
    productsOn ring left right ⟨row, col⟩ = left.toList.filterMap fun entry =>
      if entry.1.row = row then (right.get? entry.1.col col).map (ring.times entry.2)
      else none := by
  rw [productsOn, products, List.filter_flatMap, List.map_flatMap,
    List.filterMap_eq_flatMap_toList]
  congr 1
  funext entry
  rw [List.filter_map, List.map_map]
  by_cases hrow : entry.1.row = row
  · have hcol : (right.rowEntries.getD entry.1.col []).filter
        ((fun product => decide (product.1 = ⟨row, col⟩)) ∘
          fun factor => ((⟨entry.1.row, factor.1⟩ : Cell), ring.times entry.2 factor.2)) =
        (right.rowEntries.getD entry.1.col []).filter (fun factor => factor.1 = col) :=
      List.filter_congr fun factor _ => by simp [hrow]
    rw [hcol, filter_rowEntries, if_pos hrow]
    cases right.get? entry.1.col col <;> rfl
  · simp [hrow, Function.comp_def]

/-- The elementary products on a cell are those of the meetings, each of them once. -/
theorem productsOn_eq_map_meetings (ring : Semiring) (left right : SparseMatrix)
    (row col : UInt64) :
    productsOn ring left right ⟨row, col⟩ = (meetings left right row col).map fun k =>
      ring.times ((left.get? row k).getD 0) ((right.get? k col).getD 0) := by
  rw [productsOn_eq_filterMap, meetings, List.map_map, ← List.filterMap_eq_map,
    List.filterMap_filter]
  refine List.filterMap_congr fun entry hentry => ?_
  obtain ⟨⟨i, k⟩, value⟩ := entry
  rw [mem_toList_iff] at hentry
  by_cases hrow : i = row
  · subst hrow
    cases hget : right.get? k col <;> simp_all [Stores]
  · simp [hrow]

namespace Semiring

/-- Arithmetic sums modulo the size of a word. -/
theorem toNat_foldl_gather_plusTimes {products : List UInt64} {sum found : UInt64}
    (h : products.foldl (fun sum? product => gather .plusTimes product sum?) (some sum) =
      some found) :
    found.toNat = (sum.toNat + (products.map UInt64.toNat).sum) % 2 ^ 64 := by
  induction products generalizing sum with
  | nil =>
    obtain rfl : sum = found := Option.some.inj h
    simp
  | cons product rest ih =>
    rw [ih h, plus, UInt64.toNat_add, Nat.mod_add_mod, List.map_cons, List.sum_cons, Nat.add_assoc]

/-- The gathered arithmetic products are their sum modulo the size of a word. -/
theorem toNat_gatherAll_plusTimes {products : List UInt64} {found : UInt64}
    (h : gatherAll .plusTimes products = some found) :
    found.toNat = (products.map UInt64.toNat).sum % 2 ^ 64 := by
  cases products with
  | nil => simp [gatherAll] at h
  | cons product rest =>
    rw [toNat_foldl_gather_plusTimes h, List.map_cons, List.sum_cons]

end Semiring

/-- What a cell of a product stores is what the semiring makes of the meetings. -/
theorem combines_of_get?_multiply (h : multiply ring left right = .ok product)
    {row col value : UInt64} (hvalue : product.get? row col = some value) :
    ring.Combines left right row col value := by
  cases ring with
  | anyPair =>
    have hone := isPattern_of_multiply h row col (Option.isSome_of_mem hvalue)
    exact Option.some.inj (hvalue.symm.trans hone)
  | plusTimes =>
    rw [get?_multiply h, productsOn_eq_map_meetings] at hvalue
    refine ⟨(meetings left right row col).toFinset, fun k => ?_, ?_⟩
    · rw [List.mem_toFinset, mem_meetings_iff]
    · rw [List.sum_toFinset _ (nodup_meetings left right row col),
        Semiring.toNat_gatherAll_plusTimes hvalue, List.map_map]
      -- Each product was taken modulo the size of a word, which the sum modulo it does not show.
      conv_rhs => rw [List.sum_nat_mod, List.map_map]
      exact congrArg (fun terms => terms.sum % 2 ^ 64)
        (List.map_congr_left fun k _ => UInt64.toNat_mul _ _)
  | minSecond =>
    obtain ⟨hfound, hleast⟩ := get?_multiply_minSecond h hvalue
    exact ⟨hfound, fun found ⟨k, hleft, hright⟩ => hleast k found hleft hright⟩

/-- What multiplying answers is the product over the semiring. -/
theorem isProduct_of_multiply (hleft : left.InBounds) (hright : right.InBounds)
    (h : multiply ring left right = .ok product) : IsProduct ring left right product := by
  obtain ⟨hrows, hcols⟩ := shape_of_multiply h
  refine ⟨hrows, hcols, fun cell hcell => ?_, stores_multiply_iff h,
    fun row col value => combines_of_get?_multiply h⟩
  obtain ⟨k, hl, hr⟩ := (stores_multiply_iff h cell.row cell.col).1 ((stores_iff_mem _ _).2 hcell)
  rw [hrows, hcols]
  exact ⟨(hleft _ ((stores_iff_mem _ _).1 hl)).1, (hright _ ((stores_iff_mem _ _).1 hr)).2⟩

/-- Multiplying is refused exactly when the columns of the left matrix are not the rows of the right
one, and otherwise answers the product over the semiring; stored zeros are entries like others. -/
theorem multiply_isProduct (hleft : left.InBounds) (hright : right.InBounds) (ring : Semiring) :
    (multiply ring left right = .error (shapeMismatch left right) ↔ left.cols ≠ right.rows) ∧
      (left.cols = right.rows →
        ∃ product, multiply ring left right = .ok product ∧
          IsProduct ring left right product) := by
  have hanswer (hshape : left.cols = right.rows) :
      ∃ product, multiply ring left right = .ok product ∧ IsProduct ring left right product := by
    obtain ⟨product, hproduct⟩ : ∃ product, multiply ring left right = .ok product :=
      multiply_eq_ok hshape
    exact ⟨product, hproduct, isProduct_of_multiply hleft hright hproduct⟩
  refine ⟨⟨fun herror hshape => ?_, fun hshape => if_neg hshape⟩, hanswer⟩
  obtain ⟨product, hproduct, -⟩ := hanswer hshape
  rw [hproduct] at herror
  cases herror

/-- A row with a stored zero meets a column twice, and the sum of the two products wraps to zero,
which is stored. -/
theorem multiply_isProduct_wrapping :
    let left : SparseMatrix :=
      ⟨1, 2, .ofList [((⟨0, 0⟩, 0x8000000000000000) : Cell × UInt64), (⟨0, 1⟩, 0)]⟩
    let right : SparseMatrix := ⟨2, 1, .ofList [((⟨0, 0⟩, 2) : Cell × UInt64), (⟨1, 0⟩, 5)]⟩
    left.InBounds ∧ right.InBounds ∧
      ∃ product, multiply .plusTimes left right = .ok product ∧
        IsProduct .plusTimes left right product ∧ product.get? 0 0 = some 0 := by
  intro left right
  have hleft : left.InBounds := by decide +kernel
  have hright : right.InBounds := by decide +kernel
  obtain ⟨product, hproduct, hvalues⟩ := (multiply_isProduct hleft hright .plusTimes).2 rfl
  refine ⟨hleft, hright, product, hproduct, hvalues, ?_⟩
  have hone : (multiply .plusTimes left right).toOption.bind (·.get? 0 0) = some 0 := by
    decide +kernel
  rwa [hproduct] at hone

end SparseMatrix

end PatternTraversal
