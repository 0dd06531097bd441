import PatternTraversal.Matrix.Semiring

/-!
# Component labels

Each node starts with its own number as its label and takes over, round after round, the smallest
label among its own and those of the nodes that its row points at. The rounds end when no label
changes, which takes no more of them than there are nodes.
-/

namespace PatternTraversal

namespace SparseMatrix

/-- The pattern of a matrix together with that of its transpose, every entry being `1`. -/
def symmetrize (m : SparseMatrix) : Except AlgebraError SparseMatrix :=
  m.toList.foldlM (fun sym (cell, _) =>
    match sym.set 1 cell.row cell.col with
    | .error error => .error error
    | .ok sym => sym.set 1 cell.col cell.row) (zero m.rows m.cols)

/-- The column in which each of `n` nodes has its own number. -/
def ownLabels (n : UInt64) : SparseMatrix where
  rows := n
  cols := 1
  entries := (List.range n.toNat).foldl (fun entries node =>
    entries.insert ⟨UInt64.ofNat node, 0⟩ (UInt64.ofNat node)) ∅

/-- One round: the smallest label of each node and the nodes that its row points at. -/
def pullLabels (m labels : SparseMatrix) : Except AlgebraError SparseMatrix :=
  match m.multiply .minSecond labels with
  | .error error => .error error
  | .ok pulled => pulled.minimum labels

/-- Rounds until no label changes, at most `rounds` of them. -/
def settleLabels (m : SparseMatrix) :
    (rounds : Nat) → SparseMatrix → Except AlgebraError SparseMatrix
  | 0, labels => .ok labels
  | rounds + 1, labels =>
    match m.pullLabels labels with
    | .error error => .error error
    | .ok pulled => if pulled = labels then .ok labels else m.settleLabels rounds pulled

/-- The label of each node, in the order of the nodes. -/
def componentLabels (m : SparseMatrix) : Except AlgebraError (List UInt64) :=
  match m.settleLabels (m.rows.toNat + 1) (ownLabels m.rows) with
  | .error error => .error error
  | .ok labels => .ok (labels.toList.map (·.2))

end SparseMatrix

end PatternTraversal
