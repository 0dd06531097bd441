import PatternTraversal.Expression.Evaluation

/-!
# Stored graphs

A graph kept as matrices over its node numbers: one matrix per relationship type, whose entries are
edge numbers, one matrix of all relationships, and a diagonal matrix per label and per mask. A type
or label gets its matrix with the first update that names it, also when that update is refused for a
node outside the graph; edge numbers are given out to accepted edges only.
-/

namespace PatternTraversal

/-- What a procedure may read of a graph. -/
structure GraphView where
  /-- Matrix of every relationship regardless of type. -/
  adjacency : SparseMatrix
  /-- Matrix of one relationship type. -/
  relation? : String → Option SparseMatrix

/-- A graph held as matrices. -/
structure StoredGraph where
  /-- Number of nodes, and dimension of every matrix. -/
  dim : UInt64
  adjacency : SparseMatrix
  relations : Std.ExtTreeMap String SparseMatrix
  labels : Std.ExtTreeMap String SparseMatrix
  masks : Std.ExtTreeMap String SparseMatrix
  /-- Number of the next edge. -/
  nextEdge : UInt64
deriving DecidableEq

namespace StoredGraph

/-- A change of a stored graph. -/
inductive Update where
  /-- Connect two nodes by a relationship of the given type. -/
  | edge (relation : String) (source target : UInt64)
  /-- Tag a node. -/
  | label (name : String) (node : UInt64)
  /-- Register the mask that selects the listed nodes, in place of a previous one. -/
  | mask (name : String) (nodes : List UInt64)
deriving DecidableEq, Repr

/-- The graph of the given size without relationships, labels and masks. -/
def empty (dim : UInt64) : StoredGraph := ⟨dim, .zero dim dim, ∅, ∅, ∅, 0⟩

/-- The square matrix of the graph's size that stores nothing. -/
def blank (graph : StoredGraph) : SparseMatrix := .zero graph.dim graph.dim

/-- Matrix of a relationship type that some update has named. -/
def relation? (graph : StoredGraph) (relation : String) : Option SparseMatrix :=
  graph.relations[relation]?

/-- Matrix of a label that some update has named. -/
def label? (graph : StoredGraph) (name : String) : Option SparseMatrix := graph.labels[name]?

/-- Matrix of a registered mask. -/
def mask? (graph : StoredGraph) (name : String) : Option SparseMatrix := graph.masks[name]?

/-- The part of the graph that procedures read. -/
def view (graph : StoredGraph) : GraphView := ⟨graph.adjacency, graph.relation?⟩

/-- Add an edge; its number is the answer. -/
def addEdge (graph : StoredGraph) (relation : String) (source target : UInt64) :
    Except AlgebraError UInt64 × StoredGraph :=
  let known := graph.relations.getD relation graph.blank
  match known.set graph.nextEdge source target with
  | .error error =>
    (.error error, { graph with relations := graph.relations.insert relation known })
  | .ok matrix =>
    let graph := { graph with relations := graph.relations.insert relation matrix }
    match graph.adjacency.set 1 source target with
    | .error error => (.error error, graph)
    | .ok adjacency =>
      (.ok graph.nextEdge, { graph with adjacency, nextEdge := graph.nextEdge + 1 })

/-- Tag a node. -/
def addLabel (graph : StoredGraph) (name : String) (node : UInt64) :
    Except AlgebraError Unit × StoredGraph :=
  let known := graph.labels.getD name graph.blank
  match known.set 1 node node with
  | .error error => (.error error, { graph with labels := graph.labels.insert name known })
  | .ok matrix => (.ok (), { graph with labels := graph.labels.insert name matrix })

/-- Register a mask; one node outside the graph refuses it whole. -/
def addMask (graph : StoredGraph) (name : String) (nodes : List UInt64) :
    Except AlgebraError Unit × StoredGraph :=
  match SparseMatrix.diagonal graph.dim nodes with
  | .error error => (.error error, graph)
  | .ok matrix => (.ok (), { graph with masks := graph.masks.insert name matrix })

/-- The graph after one update, accepted or refused. -/
def update (graph : StoredGraph) : Update → StoredGraph
  | .edge relation source target => (graph.addEdge relation source target).2
  | .label name node => (graph.addLabel name node).2
  | .mask name nodes => (graph.addMask name nodes).2

/-- The graph of the given size after a sequence of updates. -/
def ofUpdates (dim : UInt64) (updates : List Update) : StoredGraph :=
  updates.foldl update (empty dim)

/-- The stored matrix behind an operand: unknown types and labels store nothing, an unknown mask is
an error. -/
def resolve (graph : StoredGraph) : Expression.Resolver
  | .adjacency none _ _ _ => .ok graph.adjacency
  | .adjacency (some relation) _ _ _ => .ok ((graph.relation? relation).getD graph.blank)
  | .label name _ => .ok ((graph.label? name).getD graph.blank)
  | .mask name _ =>
    match graph.mask? name with
    | some matrix => .ok matrix
    | none => .error (.unknownMask name)

/-- The product of an expression over the graph. -/
def evaluate (graph : StoredGraph) (e : Expression) : Except AlgebraError SparseMatrix :=
  e.evaluate graph.resolve

end StoredGraph

end PatternTraversal
