import Std.Data.ExtTreeMap
import PatternTraversal.AlgebraError

/-!
# Sparse matrices

Matrices of 64-bit words that store some of their cells. What is stored matters, not its value: a
stored zero is an entry. Entries are listed row by row and, within a row, by column. Two matrices of
one shape with the same entries are equal.
-/

namespace PatternTraversal

/-- Row and column of a matrix entry. -/
structure Cell where
  row : UInt64
  col : UInt64
deriving DecidableEq, Repr, Inhabited

namespace Cell

/-- Cells compare by row, then by column. -/
instance instOrd : Ord Cell := ⟨compareLex (compareOn Cell.row) (compareOn Cell.col)⟩

instance instTransOrd : Std.TransOrd Cell :=
  inferInstanceAs (Std.TransCmp (compareLex (compareOn Cell.row) (compareOn Cell.col)))

instance instLawfulEqOrd : Std.LawfulEqOrd Cell where
  eq_of_compare {a b} h := by
    have h : (compare a.row b.row).then (compare a.col b.col) = .eq := h
    rw [Ordering.then_eq_eq] at h
    cases a
    cases b
    exact congr (congrArg Cell.mk (Std.LawfulEqCmp.eq_of_compare h.1))
      (Std.LawfulEqCmp.eq_of_compare h.2)

/-- The cell on the other side of the diagonal. -/
def transpose (cell : Cell) : Cell := ⟨cell.col, cell.row⟩

end Cell

/-- A shape and the stored entries. -/
structure SparseMatrix where
  rows : UInt64
  cols : UInt64
  entries : Std.ExtTreeMap Cell UInt64
deriving DecidableEq

namespace SparseMatrix

/-- The matrix of a shape that stores nothing. -/
def zero (rows cols : UInt64) : SparseMatrix := ⟨rows, cols, ∅⟩

/-- Whether every stored entry lies inside the shape. -/
def InBounds (m : SparseMatrix) : Prop :=
  ∀ cell, cell ∈ m.entries → cell.row < m.rows ∧ cell.col < m.cols

/-- The entry of a cell, if one is stored. -/
def get? (m : SparseMatrix) (row col : UInt64) : Option UInt64 := m.entries[(⟨row, col⟩ : Cell)]?

/-- Store a value in a cell, in place of a previous one. -/
def set (m : SparseMatrix) (value row col : UInt64) : Except AlgebraError SparseMatrix :=
  if row < m.rows ∧ col < m.cols then
    .ok { m with entries := m.entries.insert ⟨row, col⟩ value }
  else .error (.indexOutOfBounds row col m.rows m.cols)

/-- The square matrix that stores `1` at each listed diagonal index. -/
def diagonal (n : UInt64) (indices : List UInt64) : Except AlgebraError SparseMatrix :=
  indices.foldlM (fun m index => m.set 1 index index) (zero n n)

/-- Stored entries, row by row. -/
def toList (m : SparseMatrix) : List (Cell × UInt64) := m.entries.toList

/-- Number of stored entries. -/
def size (m : SparseMatrix) : Nat := m.entries.size

/-- Rows and columns exchanged. -/
def transpose (m : SparseMatrix) : SparseMatrix :=
  ⟨m.cols, m.rows,
    Std.ExtTreeMap.ofList (m.toList.map fun entry => (entry.1.transpose, entry.2))⟩

/-- The error of an operation that the two shapes do not fit. -/
def shapeMismatch (left right : SparseMatrix) : AlgebraError :=
  .shapeMismatch left.rows left.cols right.rows right.cols

/-- The smaller value where both matrices store one, and the stored one elsewhere. -/
def minimum (left right : SparseMatrix) : Except AlgebraError SparseMatrix :=
  if left.rows = right.rows ∧ left.cols = right.cols then
    .ok { left with
      entries := right.toList.foldl (fun entries (cell, value) =>
        entries.alter cell fun
          | none => some value
          | some known => some (if known ≤ value then known else value)) left.entries }
  else .error (shapeMismatch left right)

/-- Two matrices of one shape with the same entries are equal. -/
theorem ext_get? {left right : SparseMatrix} (rows : left.rows = right.rows)
    (cols : left.cols = right.cols) (entries : ∀ row col, left.get? row col = right.get? row col) :
    left = right := by
  cases left
  cases right
  cases rows
  cases cols
  congr
  exact Std.ExtTreeMap.ext_getElem? fun cell => entries cell.row cell.col

/-- The matrix without entries stores nothing. -/
@[simp] theorem get?_zero (rows cols row col : UInt64) : (zero rows cols).get? row col = none := by
  simp [get?, zero]

/-- An entry is listed exactly when its cell stores its value. -/
theorem mem_toList_iff {m : SparseMatrix} {cell : Cell} {value : UInt64} :
    (cell, value) ∈ m.toList ↔ m.get? cell.row cell.col = some value :=
  Std.ExtTreeMap.mem_toList_iff_getElem?_eq_some

end SparseMatrix

end PatternTraversal
