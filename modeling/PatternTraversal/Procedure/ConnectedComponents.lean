import PatternTraversal.Matrix.Labels
import PatternTraversal.Procedure.Handle
import PatternTraversal.StoredGraph

/-!
# Connected components

The procedure `algo.CC` labels every node with the smallest node it is connected to, whatever the
direction of the edges. Its argument names a relationship type; null stands for all of them. It
yields one row of two parallel arrays, the nodes and their labels.
-/

namespace PatternTraversal

/-- State of the procedure: the graph, and the symmetric matrix once invoked. -/
structure ConnectedComponents where
  graph : GraphView
  matrix? : Option SparseMatrix

namespace ConnectedComponents

/-- Name under which the procedure is registered. -/
def procedureName : String := "algo.CC"

/-- Column of the nodes. -/
def nodeColumn : String := "Nodeidx"

/-- Column of the labels. -/
def labelColumn : String := "value"

/-- One optional relationship type in; the nodes and their labels out. -/
def signature : Signature where
  name := procedureName
  args := [⟨"relationshipType", .string, true⟩]
  outputs := [⟨nodeColumn, .array⟩, ⟨labelColumn, .array⟩]
  readOnly := true

/-- The matrix that the arguments ask for. -/
def source? (graph : GraphView) (args : List Value) : Option SparseMatrix :=
  match args.head?.bind Value.asString? with
  | none => some graph.adjacency
  | some relation => graph.relation? relation

/-- The row of the labels of all nodes. -/
def row (labels : List UInt64) : Row where
  fields :=
    [(nodeColumn, .array ((List.range labels.length).map fun node => .int (Int64.ofNat node))),
      (labelColumn, .array (labels.map fun label => .int label.toInt64))]

/-- The procedure. -/
def procedure : Procedure ConnectedComponents where
  signature _ := signature
  invoke args state :=
    match source? state.graph args with
    | none => (.ok .resourceNotFound, state)
    | some source =>
      match source.symmetrize with
      | .error error => (.error (.kernel error), state)
      | .ok matrix => (.ok .ready, { state with matrix? := some matrix })
  step state :=
    match state.matrix? with
    | none => (.ok none, state)
    | some matrix =>
      let rest := { state with matrix? := none }
      match matrix.componentLabels with
      | .error error => (.error (.kernel error), rest)
      | .ok labels => (.ok (some (row labels)), rest)
  free state := { state with matrix? := none }

/-- The procedure on a graph, before its invocation. -/
def create (graph : GraphView) : Handle ConnectedComponents :=
  .create procedure ⟨graph, none⟩

end ConnectedComponents

end PatternTraversal
