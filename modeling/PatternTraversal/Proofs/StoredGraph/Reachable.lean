import PatternTraversal.Proofs.Matrix.Entries
import PatternTraversal.StoredGraph

/-!
# Graphs that updates lead to

Every matrix of a graph is square of the graph's size, and those of labels and masks are diagonal.
Each update keeps this, accepted or refused, so it holds of every graph that updates lead to.
-/

namespace PatternTraversal

namespace StoredGraph

/-- The matrices of a graph have its size, and those of labels and masks are diagonal. -/
structure IsSquare (graph : StoredGraph) : Prop where
  adjacency : graph.adjacency.IsSquare graph.dim
  relations : ∀ name m, graph.relation? name = some m → m.IsSquare graph.dim
  labels : ∀ name m, graph.label? name = some m → m.IsSquare graph.dim ∧ m.IsDiagonal
  masks : ∀ name m, graph.mask? name = some m → m.IsSquare graph.dim ∧ m.IsDiagonal

section Maps

variable {known : Std.ExtTreeMap String SparseMatrix} {P : SparseMatrix → Prop}

/-- What holds of all matrices of a map and of one more holds after inserting it. -/
theorem forall_insert (hknown : ∀ (name : String) m, known[name]? = some m → P m) (name : String)
    {m : SparseMatrix} (hm : P m) (other : String) (m' : SparseMatrix)
    (h : (known.insert name m)[other]? = some m') : P m' := by
  rw [Std.ExtTreeMap.getElem?_insert] at h
  split at h
  · exact Option.some.inj h ▸ hm
  · exact hknown other m' h

/-- What holds of all matrices of a map and of the blank one holds of a matrix looked up. -/
theorem forall_getD (hknown : ∀ (name : String) m, known[name]? = some m → P m)
    {blank : SparseMatrix} (hblank : P blank) (name : String) : P (known[name]?.getD blank) := by
  cases h : known[name]? with
  | none => exact hblank
  | some m => exact hknown name m h

end Maps

/-- The blank matrix of a graph is square and diagonal. -/
theorem isSquare_blank (graph : StoredGraph) :
    graph.blank.IsSquare graph.dim ∧ graph.blank.IsDiagonal :=
  ⟨SparseMatrix.isSquare_zero graph.dim, SparseMatrix.isDiagonal_zero graph.dim graph.dim⟩

/-- The graph without relationships, labels and masks. -/
theorem isSquare_empty (dim : UInt64) : (empty dim).IsSquare where
  adjacency := SparseMatrix.isSquare_zero dim
  relations := by simp [relation?, empty]
  labels := by simp [label?, empty]
  masks := by simp [mask?, empty]

variable {graph : StoredGraph}

/-- The matrix that an edge of a type is written to is square. -/
theorem IsSquare.getD_relations (h : graph.IsSquare) (relation : String) :
    (graph.relations.getD relation graph.blank).IsSquare graph.dim := by
  rw [Std.ExtTreeMap.getD_eq_getD_getElem?]
  exact forall_getD h.relations graph.isSquare_blank.1 relation

/-- The matrix that a label is written to is square and diagonal. -/
theorem IsSquare.getD_labels (h : graph.IsSquare) (name : String) :
    (graph.labels.getD name graph.blank).IsSquare graph.dim ∧
      (graph.labels.getD name graph.blank).IsDiagonal := by
  rw [Std.ExtTreeMap.getD_eq_getD_getElem?]
  exact forall_getD h.labels graph.isSquare_blank name

/-- An edge keeps the matrices square. -/
theorem IsSquare.addEdge (h : graph.IsSquare) (relation : String) (source target : UInt64) :
    (graph.addEdge relation source target).2.IsSquare := by
  have hknown := h.getD_relations relation
  unfold StoredGraph.addEdge
  dsimp only
  split
  · exact ⟨h.adjacency, forall_insert h.relations relation hknown, h.labels, h.masks⟩
  · next matrix hmatrix =>
    have hrelations := forall_insert h.relations relation (hknown.set hmatrix)
    split
    · exact ⟨h.adjacency, hrelations, h.labels, h.masks⟩
    · next adjacency hadjacency =>
      exact ⟨h.adjacency.set hadjacency, hrelations, h.labels, h.masks⟩

/-- A label keeps the matrices square and the labels diagonal. -/
theorem IsSquare.addLabel (h : graph.IsSquare) (name : String) (node : UInt64) :
    (graph.addLabel name node).2.IsSquare := by
  have hknown := h.getD_labels name
  unfold StoredGraph.addLabel
  dsimp only
  split
  · exact ⟨h.adjacency, h.relations, forall_insert h.labels name hknown, h.masks⟩
  · next matrix hmatrix =>
    exact ⟨h.adjacency, h.relations,
      forall_insert h.labels name ⟨hknown.1.set hmatrix, hknown.2.set hmatrix⟩, h.masks⟩

/-- A mask keeps the matrices square and the masks diagonal. -/
theorem IsSquare.addMask (h : graph.IsSquare) (name : String) (nodes : List UInt64) :
    (graph.addMask name nodes).2.IsSquare := by
  unfold StoredGraph.addMask
  split
  · exact h
  · next matrix hmatrix =>
    exact ⟨h.adjacency, h.relations, h.labels,
      forall_insert h.masks name (SparseMatrix.isSquare_diagonal hmatrix)⟩

/-- One update keeps the matrices square. -/
theorem IsSquare.update (h : graph.IsSquare) (change : Update) :
    (graph.update change).IsSquare := by
  cases change with
  | edge relation source target => exact h.addEdge relation source target
  | label name node => exact h.addLabel name node
  | mask name nodes => exact h.addMask name nodes

/-- One update keeps the number of nodes. -/
@[simp] theorem dim_update (graph : StoredGraph) (change : Update) :
    (graph.update change).dim = graph.dim := by
  cases change with
  | edge relation source target =>
    simp only [StoredGraph.update, StoredGraph.addEdge]
    split
    · rfl
    · split <;> rfl
  | label name node =>
    simp only [StoredGraph.update, StoredGraph.addLabel]
    split <;> rfl
  | mask name nodes =>
    simp only [StoredGraph.update, StoredGraph.addMask]
    split <;> rfl

/-- Updates keep the matrices square. -/
theorem IsSquare.foldl_update (h : graph.IsSquare) (updates : List Update) :
    (updates.foldl StoredGraph.update graph).IsSquare := by
  induction updates generalizing graph with
  | nil => exact h
  | cons change rest ih => exact ih (h.update change)

/-- Updates keep the number of nodes. -/
theorem dim_foldl_update (graph : StoredGraph) (updates : List Update) :
    (updates.foldl StoredGraph.update graph).dim = graph.dim := by
  induction updates generalizing graph with
  | nil => rfl
  | cons change rest ih => rw [List.foldl_cons, ih, dim_update]

/-- The matrices of every graph that updates lead to are square. -/
theorem isSquare_ofUpdates (dim : UInt64) (updates : List Update) :
    (ofUpdates dim updates).IsSquare :=
  (isSquare_empty dim).foldl_update updates

/-- The size of a graph stays the one it was made with. -/
@[simp] theorem dim_ofUpdates (dim : UInt64) (updates : List Update) :
    (ofUpdates dim updates).dim = dim :=
  dim_foldl_update (empty dim) updates

end StoredGraph

end PatternTraversal
