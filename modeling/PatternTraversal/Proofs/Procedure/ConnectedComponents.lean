import PatternTraversal.Procedure.ConnectedComponents
import PatternTraversal.Proofs.Matrix.Labels
import PatternTraversal.Proofs.Matrix.Symmetrize
import PatternTraversal.Proofs.Procedure.Handle
import PatternTraversal.Proofs.Procedure.Simulation
import PatternTraversal.Proofs.StoredGraph.Reachable

/-!
# Labels of connected components

Over the symmetric matrix a node reaches what an undirected path of stored edges connects it to. So
the labels that the procedure yields are the least nodes of the components. Of the graph the
procedure reads nothing but the edges that an invocation asks for.
-/

namespace PatternTraversal

namespace SparseMatrix

variable {m sym : SparseMatrix}

/-- Two nodes are adjacent when an edge is stored between them, in either direction. -/
def Adjacent (m : SparseMatrix) (i j : UInt64) : Prop := m.Stores i j ∨ m.Stores j i

/-- Two nodes are connected when a path of adjacent nodes joins them. -/
def Connected (m : SparseMatrix) : UInt64 → UInt64 → Prop := Relation.ReflTransGen m.Adjacent

/-- The symmetric matrix reaches what the matrix connects. -/
theorem reaches_eq_connected (h : ∀ i j, sym.Stores i j ↔ m.Adjacent i j) :
    sym.Reaches = m.Connected := by
  have hstep : sym.Stores = m.Adjacent := funext fun i => funext fun j => propext (h i j)
  rw [Reaches, Connected, hstep]

/-- The labels of the symmetric matrix of a square one are the least connected nodes. -/
theorem IsSquare.exists_componentLabels_symmetrize {n : UInt64} (hm : m.IsSquare n) :
    ∃ sym, m.symmetrize = .ok sym ∧ ∃ least : UInt64 → UInt64,
      sym.componentLabels = .ok ((List.range n.toNat).map fun i => least (UInt64.ofNat i)) ∧
        ∀ i < n, IsLeast {j | m.Connected i j} (least i) := by
  obtain ⟨sym, hsym, hsquare, hstores⟩ := hm.exists_symmetrize
  obtain ⟨least, hlabels, hleast⟩ := exists_componentLabels hsquare
  rw [reaches_eq_connected hstores] at hleast
  exact ⟨sym, hsym, least, hlabels, hleast⟩

end SparseMatrix

namespace ConnectedComponents

/-- The argument for a relationship type, or for all of them. -/
def argument : Option String → Value
  | none => .null
  | some relation => .string relation

/-- The edges of a relationship type, or all of them. -/
def edges? (graph : StoredGraph) : Option String → Option SparseMatrix
  | none => some graph.adjacency
  | some relation => graph.relation? relation

/-- A row of the nodes and the least node connected to each of them. -/
def IsComponentRow (edges : SparseMatrix) (dim : UInt64) (row : Row) : Prop :=
  ∃ nodes labels : List Int64,
    row = ⟨[("Nodeidx", .array (nodes.map .int)), ("value", .array (labels.map .int))]⟩ ∧
      nodes.map Int64.toInt = (List.range dim.toNat).map Nat.cast ∧
      labels.length = dim.toNat ∧
      ∀ i < dim, ∃ label least, labels[i.toNat]? = some label ∧ label.toInt = least.toNat ∧
        IsLeast {j | edges.Connected i j} least

/-- The row of the least connected nodes names them as long as their numbers fit signed words. -/
theorem isComponentRow_row {edges : SparseMatrix} {dim : UInt64} (hdim : dim < 9223372036854775808)
    {least : UInt64 → UInt64}
    (hleast : ∀ i < dim, IsLeast {j | edges.Connected i j} (least i)) :
    IsComponentRow edges dim
      (row ((List.range dim.toNat).map fun i => least (UInt64.ofNat i))) := by
  have hfits {i : ℕ} (hi : i < dim.toNat) : i < 2 ^ 63 :=
    hi.trans (UInt64.lt_iff_toNat_lt.1 hdim)
  refine ⟨(List.range dim.toNat).map Int64.ofNat,
    (List.range dim.toNat).map fun i => (least (UInt64.ofNat i)).toInt64, ?_, ?_, by simp, ?_⟩
  · simp [row, nodeColumn, labelColumn, Function.comp_def]
  · rw [List.map_map]
    refine List.map_congr_left fun i hi => ?_
    exact Int64.toInt_ofNat_of_lt (hfits (List.mem_range.1 hi))
  · intro i hi
    have hi' : i.toNat < dim.toNat := UInt64.lt_iff_toNat_lt.1 hi
    refine ⟨(least i).toInt64, least i, ?_, ?_, hleast i hi⟩
    · rw [List.getElem?_map, List.getElem?_range hi', Option.map_some, UInt64.ofNat_toNat]
    · have hle : (least i).toNat ≤ i.toNat := UInt64.le_iff_toNat_le.1 ((hleast i hi).2 .refl)
      have hword : (least i).toInt64 = Int64.ofNat (least i).toNat := by
        rw [← UInt64.toInt64_ofNat', UInt64.ofNat_toNat]
      rw [hword]
      exact Int64.toInt_ofNat_of_lt (hfits (hle.trans_lt hi'))

/-- The procedure reads the edges that the argument asks for. -/
theorem source?_argument (graph : StoredGraph) (relation : Option String) :
    source? graph.view [argument relation] = edges? graph relation := by
  cases relation <;> rfl

/-- The procedure finds the edges it is asked for unless a relationship type is not known. -/
theorem edges?_eq_none_iff (graph : StoredGraph) (relation : Option String) :
    edges? graph relation = none ↔ ∃ name, relation = some name ∧ graph.relation? name = none := by
  cases relation <;> simp [edges?]

/-- The edges of a graph that updates lead to form a square matrix. -/
theorem isSquare_of_edges? {graph : StoredGraph} (h : graph.IsSquare) {relation : Option String}
    {edges : SparseMatrix} (hedges : edges? graph relation = some edges) :
    edges.IsSquare graph.dim := by
  cases relation with
  | none => exact Option.some.inj hedges ▸ h.adjacency
  | some name => exact h.relations name edges hedges

/-- The procedure answers alike on two graphs as long as the invocations find the same edges. -/
theorem simulates_on (graph graph' : GraphView) :
    procedure.Simulates procedure
      (fun s t => s.graph = graph ∧ t.graph = graph' ∧ s.matrix? = t.matrix?)
      (fun args => source? graph args = source? graph' args) where
  signature _ _ _ := rfl
  invoke := by
    rintro ⟨_, matrix?⟩ ⟨_, _⟩ args ⟨rfl, rfl, rfl⟩ hsource
    simp only [procedure, hsource]
    split
    · simp
    · split <;> simp
  step := by
    rintro ⟨_, matrix?⟩ ⟨_, _⟩ ⟨rfl, rfl, rfl⟩
    simp only [procedure]
    split
    · simp
    · split <;> simp
  free := by
    rintro ⟨_, matrix?⟩ ⟨_, _⟩ ⟨rfl, rfl, rfl⟩
    exact ⟨rfl, rfl, rfl⟩

/-- The replies of the procedure on two graphs agree when its invocations find the same edges. -/
theorem replies_create_congr {graph graph' : GraphView} {requests : List Request}
    (h : ∀ args, .invoke args ∈ requests → source? graph args = source? graph' args) :
    (create graph).replies requests = (create graph').replies requests :=
  have hcreate : Handle.Related procedure procedure
      (fun s t => s.graph = graph ∧ t.graph = graph' ∧ s.matrix? = t.matrix?) (create graph)
      (create graph') := .mk .created ⟨rfl, rfl, rfl⟩
  hcreate.replies (simulates_on graph graph') h

/-- Null and strings are accepted, so the invocation reaches the procedure. -/
theorem invoke_argument (graph : StoredGraph) (relation : Option String) :
    (create graph.view).invoke [argument relation] =
      let (answer, inner) := procedure.invoke [argument relation] ⟨graph.view, none⟩
      (answer, ⟨procedure, inner, Handle.phaseAfter answer⟩) := by
  have hvalid : (create graph.view).signature.validate [argument relation] = .ok () := by
    cases relation <;> rfl
  exact Handle.invoke_of_created rfl hvalid

/-- An unknown relationship type is reported, and there are no rows. -/
theorem invoke_of_edges?_eq_none {graph : StoredGraph} {relation : Option String}
    (hedges : edges? graph relation = none) :
    ∃ invoked, (create graph.view).invoke [argument relation] = (.ok .resourceNotFound, invoked) ∧
      invoked.Ended := by
  rw [invoke_argument]
  simp only [procedure, source?_argument, hedges]
  exact ⟨_, rfl, Handle.ended_of_over (.inl rfl)⟩

/-- Known edges are prepared, and then there is one row, the one of their components. -/
theorem invoke_of_edges?_eq_some {dim : UInt64} (hdim : dim < 9223372036854775808)
    {graph : StoredGraph} (h : graph.IsSquare) (hsize : graph.dim = dim) {relation : Option String}
    {edges : SparseMatrix} (hedges : edges? graph relation = some edges) :
    ∃ invoked row rest, (create graph.view).invoke [argument relation] = (.ok .ready, invoked) ∧
      invoked.step = (.ok (some row), rest) ∧ IsComponentRow edges dim row ∧ rest.Ended := by
  obtain ⟨sym, hsym, least, hlabels, hleast⟩ :=
    (isSquare_of_edges? h hedges).exists_componentLabels_symmetrize
  rw [hsize] at hlabels hleast
  have hinvoke : procedure.invoke [argument relation] ⟨graph.view, none⟩ =
      (.ok .ready, ⟨graph.view, some sym⟩) := by
    simp [procedure, source?_argument, hedges, hsym]
  have hfirst : procedure.step ⟨graph.view, some sym⟩ =
      (.ok (some (row ((List.range dim.toNat).map fun i => least (UInt64.ofNat i)))),
        ⟨graph.view, none⟩) := by
    simp [procedure, hlabels]
  have hsecond : (⟨procedure, ⟨graph.view, none⟩, .ready⟩ : Handle ConnectedComponents).step =
      (.ok none, ⟨procedure, ⟨graph.view, none⟩, .exhausted⟩) :=
    Handle.step_of_ready_none rfl rfl
  rw [invoke_argument, hinvoke]
  refine ⟨_, _, _, rfl, Handle.step_of_ready_some rfl hfirst, isComponentRow_row hdim hleast, ?_⟩
  refine Handle.ended_of_step ?_ ?_
  · exact congrArg Prod.fst hsecond
  · exact hsecond ▸ Handle.ended_of_over (.inl rfl)

/-- The procedure labels connected components. On a graph that updates lead to, an unknown
relationship type is reported and there are no rows. With a known one, or null for all, the first
row labels each node with the least node that an undirected path of stored edges connects it to, and
there are no more rows. -/
theorem invoke_labels_components {dim : UInt64} (hdim : dim < 9223372036854775808)
    (updates : List StoredGraph.Update) (relation : Option String) :
    let graph := StoredGraph.ofUpdates dim updates
    let answer := ((create graph.view).invoke [argument relation]).1
    let invoked := ((create graph.view).invoke [argument relation]).2
    (answer = .ok .resourceNotFound ↔
        ∃ name, relation = some name ∧ graph.relation? name = none) ∧
      (answer = .ok .resourceNotFound → invoked.Ended) ∧
      (answer ≠ .ok .resourceNotFound → answer = .ok .ready ∧ ∃ edges row,
        edges? graph relation = some edges ∧ IsComponentRow edges dim row ∧
          invoked.step.1 = .ok (some row) ∧ invoked.step.2.Ended) := by
  intro graph
  rw [← edges?_eq_none_iff]
  cases hedges : edges? graph relation with
  | none =>
    obtain ⟨invoked, hinvoke, hended⟩ := invoke_of_edges?_eq_none hedges
    rw [hinvoke]
    exact ⟨by simp, fun _ => hended, fun h => absurd rfl h⟩
  | some edges =>
    obtain ⟨invoked, row, rest, hinvoke, hstep, hrow, hended⟩ := invoke_of_edges?_eq_some hdim
      (StoredGraph.isSquare_ofUpdates dim updates) (StoredGraph.dim_ofUpdates dim updates) hedges
    rw [hinvoke]
    refine ⟨by simp, (by simp), fun _ => ⟨rfl, edges, row, rfl, hrow, ?_, ?_⟩⟩
    · exact congrArg Prod.fst hstep
    · exact hstep ▸ hended

/-- One edge joins two of three nodes. -/
theorem invoke_labels_components_of_edge :
    let graph := StoredGraph.ofUpdates 3 [.edge "R" 2 1]
    let invoked := ((create graph.view).invoke [.string "R"]).2
    let row : Row := ⟨[("Nodeidx", .array [.int 0, .int 1, .int 2]),
      ("value", .array [.int 0, .int 1, .int 1])]⟩
    ∃ edges, graph.relation? "R" = some edges ∧ IsComponentRow edges 3 row ∧
      invoked.step.1 = .ok (some row) ∧ invoked.step.2.Ended := by
  intro graph invoked row
  have hdim : (3 : UInt64) < 9223372036854775808 := by decide
  have hstep : invoked.step.1 = .ok (some row) := by rfl
  have hknown : graph.relation? "R" ≠ none := by decide +kernel
  obtain ⟨hunknown, -, hready⟩ := invoke_labels_components hdim [.edge "R" 2 1] (some "R")
  have hanswer : ((create graph.view).invoke [.string "R"]).1 ≠ .ok .resourceNotFound := by
    intro hnotFound
    obtain ⟨name, hname, hnone⟩ := hunknown.1 hnotFound
    exact hknown (Option.some.inj hname ▸ hnone)
  obtain ⟨-, edges, found, hedges, hrow, hfound, hended⟩ := hready hanswer
  have hsame : found = row := Option.some.inj (Except.ok.inj (hfound.symm.trans hstep))
  exact ⟨edges, hedges, hsame ▸ hrow, hstep, hended⟩

end ConnectedComponents

end PatternTraversal
