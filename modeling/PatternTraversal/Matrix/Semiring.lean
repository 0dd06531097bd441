import PatternTraversal.Matrix.Basic

/-!
# Products of sparse matrices

A semiring says how two matched entries multiply and how the products that fall on one cell are
gathered. An entry of the product is stored exactly where some pair of entries matches.
-/

namespace PatternTraversal

namespace SparseMatrix

/-- Multiplication and addition of a matrix product. -/
inductive Semiring where
  /-- Reachability: every product and every sum is `1`. -/
  | anyPair
  /-- Arithmetic modulo `2 ^ 64`. -/
  | plusTimes
  /-- A product is its right factor, a sum the smaller value. -/
  | minSecond
deriving DecidableEq, Repr

namespace Semiring

/-- Product of two matched entries. -/
def times : Semiring → UInt64 → UInt64 → UInt64
  | anyPair, _, _ => 1
  | plusTimes, left, right => left * right
  | minSecond, _, right => right

/-- Sum of two products on one cell. -/
def plus : Semiring → UInt64 → UInt64 → UInt64
  | anyPair, _, _ => 1
  | plusTimes, left, right => left + right
  | minSecond, left, right => if left ≤ right then left else right

/-- Gather one more product on a cell; the first one is taken as it is. -/
def gather (ring : Semiring) (product : UInt64) : Option UInt64 → Option UInt64
  | none => some product
  | some sum => some (ring.plus sum product)

end Semiring

/-- Entries of each row, by column. -/
def rowEntries (m : SparseMatrix) : Std.ExtTreeMap UInt64 (List (UInt64 × UInt64)) :=
  m.toList.foldr (fun (cell, value) rows =>
    rows.alter cell.row fun known? => some ((cell.col, value) :: known?.getD [])) ∅

/-- Add the products of one entry with a row of the right factor to the entries of the product. -/
def addProducts (ring : Semiring) (row left : UInt64) (entries : Std.ExtTreeMap Cell UInt64)
    (factors : List (UInt64 × UInt64)) : Std.ExtTreeMap Cell UInt64 :=
  factors.foldl (fun entries (col, right) =>
    entries.alter ⟨row, col⟩ (ring.gather (ring.times left right))) entries

/-- Product of two matrices. -/
def multiply (ring : Semiring) (left right : SparseMatrix) : Except AlgebraError SparseMatrix :=
  if left.cols = right.rows then
    let factors := right.rowEntries
    .ok
      { rows := left.rows
        cols := right.cols
        entries := left.toList.foldl (fun entries (cell, value) =>
          addProducts ring cell.row value entries (factors.getD cell.col [])) ∅ }
  else .error (shapeMismatch left right)

/-- The product has the rows of the left factor and the columns of the right one. -/
theorem shape_of_multiply {ring : Semiring} {left right product : SparseMatrix}
    (h : multiply ring left right = .ok product) :
    product.rows = left.rows ∧ product.cols = right.cols := by
  unfold multiply at h
  split at h
  · cases h
    exact ⟨rfl, rfl⟩
  · cases h

end SparseMatrix

end PatternTraversal
