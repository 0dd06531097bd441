import PatternTraversal.Matrix.Labels
import PatternTraversal.Proofs.Matrix.Entries

/-!
# Symmetric matrices

The symmetric matrix of a square one is written entry by entry, both cells of each edge. No write
falls outside of the shape.
-/

namespace PatternTraversal

namespace SparseMatrix

variable {m : SparseMatrix} {n : UInt64}

/-- Write both cells of an edge. -/
def setBoth (sym : SparseMatrix) (cell : Cell) : Except AlgebraError SparseMatrix :=
  match sym.set 1 cell.row cell.col with
  | .error error => .error error
  | .ok sym => sym.set 1 cell.col cell.row

/-- Both cells of each entry are written, one entry after the other. -/
theorem symmetrize_eq_foldlM (m : SparseMatrix) :
    m.symmetrize =
      m.toList.foldlM (fun sym entry => sym.setBoth entry.1) (zero m.rows m.cols) := rfl

/-- Both cells of an edge between two nodes can be written. -/
theorem IsSquare.exists_setBoth (hm : m.IsSquare n) {cell : Cell} (hrow : cell.row < n)
    (hcol : cell.col < n) :
    ∃ sym, m.setBoth cell = .ok sym ∧ sym.IsSquare n ∧
      ∀ i j, sym.Stores i j ↔ (cell = ⟨i, j⟩ ∨ cell = ⟨j, i⟩) ∨ m.Stores i j := by
  obtain ⟨first, hfirst⟩ : ∃ first, m.set 1 cell.row cell.col = .ok first :=
    hm.exists_set_iff.2 ⟨hrow, hcol⟩
  have hsquare := hm.set hfirst
  obtain ⟨second, hsecond⟩ : ∃ second, first.set 1 cell.col cell.row = .ok second :=
    hsquare.exists_set_iff.2 ⟨hcol, hrow⟩
  refine ⟨second, by simp [setBoth, hfirst, hsecond], hsquare.set hsecond, fun i j => ?_⟩
  obtain ⟨row, col⟩ := cell
  rw [stores_set_iff hsecond, stores_set_iff hfirst, Cell.mk.injEq, Cell.mk.injEq]
  grind

/-- Writing both cells of a list of edges. -/
theorem IsSquare.exists_foldlM_setBoth (hm : m.IsSquare n) {listed : List (Cell × UInt64)}
    (hlisted : ∀ entry ∈ listed, entry.1.row < n ∧ entry.1.col < n) :
    ∃ sym, listed.foldlM (fun sym entry => sym.setBoth entry.1) m = .ok sym ∧ sym.IsSquare n ∧
      ∀ i j, sym.Stores i j ↔
        (∃ entry ∈ listed, entry.1 = ⟨i, j⟩ ∨ entry.1 = ⟨j, i⟩) ∨ m.Stores i j := by
  induction listed generalizing m with
  | nil => exact ⟨m, rfl, hm, by simp⟩
  | cons entry rest ih =>
    obtain ⟨⟨hrow, hcol⟩, hrest⟩ := List.forall_mem_cons.1 hlisted
    obtain ⟨written, hwritten, hsquare, hstores⟩ := hm.exists_setBoth hrow hcol
    obtain ⟨sym, hsym, hsymSquare, hsymStores⟩ := ih hsquare hrest
    refine ⟨sym, ?_, hsymSquare, fun i j => ?_⟩
    · rw [List.foldlM_cons, hwritten]
      exact hsym
    · rw [hsymStores, hstores]
      simp only [List.mem_cons, or_and_right, exists_or, exists_eq_left]
      rw [← or_assoc, or_comm (a := ∃ _, _)]

/-- The symmetric matrix stores the cells that the matrix stores, in both directions. -/
theorem IsSquare.exists_symmetrize (hm : m.IsSquare n) :
    ∃ sym, m.symmetrize = .ok sym ∧ sym.IsSquare n ∧
      ∀ i j, sym.Stores i j ↔ m.Stores i j ∨ m.Stores j i := by
  have hlisted : ∀ entry ∈ m.toList, entry.1.row < n ∧ entry.1.col < n := fun entry hentry =>
    hm.lt_of_stores (Option.isSome_of_mem (mem_toList_iff.1 hentry))
  obtain ⟨sym, hsym, hsquare, hstores⟩ := (isSquare_zero n).exists_foldlM_setBoth hlisted
  refine ⟨sym, ?_, hsquare, fun i j => ?_⟩
  · rw [symmetrize_eq_foldlM, hm.rows_eq, hm.cols_eq, hsym]
  · have hlisted (row col : UInt64) :
        (∃ entry ∈ m.toList, entry.1 = ⟨row, col⟩) ↔ m.Stores row col := by
      rw [Stores, Option.isSome_iff_exists]
      constructor
      · rintro ⟨⟨cell, value⟩, hentry, rfl⟩
        exact ⟨value, mem_toList_iff.1 hentry⟩
      · rintro ⟨value, hvalue⟩
        exact ⟨(⟨row, col⟩, value), mem_toList_iff.2 hvalue, rfl⟩
    have hzero : ¬ (zero n n).Stores i j := by simp [Stores]
    rw [hstores, or_iff_left hzero, ← hlisted, ← hlisted]
    simp only [and_or_left, exists_or]

end SparseMatrix

end PatternTraversal
