import PatternTraversal.Proofs.Expression.Construction
import PatternTraversal.Proofs.Expression.Evaluation
import PatternTraversal.Proofs.StoredGraph.Satisfaction

/-!
# Evaluation over a graph

Over a graph that updates lead to, an expression fails exactly at its first mask that is not
registered. Otherwise it stores a cell where a walk leads from the row to the column, each operand
taking the walk along one of its entries, and its transpose evaluates to the transposed matrix.
-/

namespace PatternTraversal

namespace StoredGraph

/-- The matrix that an operand names; none when no update has named its relationship type or label,
or registered its mask. -/
def matrix? (graph : StoredGraph) : Operand → Option SparseMatrix
  | .adjacency none _ _ _ => some graph.adjacency
  | .adjacency (some relation) _ _ _ => graph.relation? relation
  | .label name _ => graph.label? name
  | .mask name _ => graph.mask? name

/-- What an operand stores for two nodes, in the direction in which it is used; without a matrix it
stores nothing. -/
def entry? (graph : StoredGraph) (operand : Operand) (row col : UInt64) : Option UInt64 :=
  (graph.matrix? operand).bind fun m =>
    if operand.isTransposed then m.get? col row else m.get? row col

variable {graph : StoredGraph} {operand : Operand} {operands : List Operand}

/-- Behind an operand stands the matrix it names, and one that stores nothing when it names none. -/
theorem eq_getD_of_resolve {stored : SparseMatrix} (h : graph.resolve operand = .ok stored) :
    stored = (graph.matrix? operand).getD graph.blank := by
  cases operand with
  | adjacency relation source target transposed =>
    cases relation with
    | none => exact (Except.ok.inj h).symm
    | some relation => exact (Except.ok.inj h).symm
  | label name ident => exact (Except.ok.inj h).symm
  | mask name ident =>
    cases hmask : graph.mask? name with
    | none => simp [resolve, hmask] at h
    | some m =>
      obtain rfl : m = stored := by simpa [resolve, hmask] using h
      simp [matrix?, hmask]

/-- An operand fails when it is a mask that is not registered. -/
theorem failure?_resolve_eq_some_iff {error : AlgebraError} :
    Expression.failure? graph.resolve operand = some error ↔
      ∃ name ident, operand = .mask name ident ∧ graph.mask? name = none ∧
        error = .unknownMask name := by
  cases operand with
  | adjacency relation source target transposed =>
    cases relation <;> simp [Expression.failure?, resolve]
  | label name ident => simp [Expression.failure?, resolve]
  | mask name ident =>
    cases h : graph.mask? name <;> simp [Expression.failure?, resolve, h, eq_comm]

/-- The factor of an operand stores what the operand does. -/
theorem get?_factor {m : SparseMatrix} (hm : Expression.factor graph.resolve operand = .ok m)
    (row col : UInt64) : m.get? row col = graph.entry? operand row col := by
  unfold Expression.factor at hm
  cases hstored : graph.resolve operand with
  | error error => simp [hstored] at hm
  | ok stored =>
    simp only [hstored, Except.ok.injEq] at hm
    rw [← hm, eq_getD_of_resolve hstored, entry?]
    cases graph.matrix? operand with
    | none => split <;> simp [blank]
    | some m => split <;> simp

/-- An operand leads from one node to another when it stores something for them. -/
theorem leads_resolve_iff (row col : UInt64) :
    Expression.Leads graph.resolve operand row col ↔ (graph.entry? operand row col).isSome := by
  cases hfactor : Expression.factor graph.resolve operand with
  | ok m => rw [Expression.leads_iff hfactor, SparseMatrix.Stores, get?_factor hfactor]
  | error error =>
    have hfailure := Expression.factor_eq_error_iff.1 hfactor
    obtain ⟨name, ident, rfl, hmask, _⟩ := failure?_resolve_eq_some_iff.1 hfailure
    simp [Expression.Leads, hfactor, entry?, matrix?, hmask]

/-- The first failure along a chain is its first mask that is not registered. -/
theorem findSome?_failure?_eq_some_iff {error : AlgebraError} :
    operands.findSome? (Expression.failure? graph.resolve) = some error ↔
      ∃ before name ident after, operands = before ++ .mask name ident :: after ∧
        (∀ known other, .mask known other ∈ before → graph.mask? known ≠ none) ∧
        graph.mask? name = none ∧ error = .unknownMask name := by
  have hregistered (before : List Operand) :
      (∀ operand ∈ before, Expression.failure? graph.resolve operand = none) ↔
        ∀ known other, .mask known other ∈ before → graph.mask? known ≠ none := by
    simp only [Option.eq_none_iff_forall_ne_some, ne_eq, failure?_resolve_eq_some_iff]
    constructor
    · intro h known other hmem hnone
      exact h _ hmem _ ⟨known, other, rfl, hnone, rfl⟩
    · rintro h _ hmem _ ⟨name, ident, rfl, hnone, _⟩
      exact h name ident hmem hnone
  rw [List.findSome?_eq_some_iff]
  simp only [failure?_resolve_eq_some_iff, hregistered]
  constructor
  · rintro ⟨before, _, after, hoperands, ⟨name, ident, rfl, hnone, herror⟩, hbefore⟩
    exact ⟨before, name, ident, after, hoperands, hbefore, hnone, herror⟩
  · rintro ⟨before, name, ident, after, hoperands, hbefore, hnone, herror⟩
    exact ⟨before, _, after, hoperands, ⟨name, ident, rfl, hnone, herror⟩, hbefore⟩

/-- The transpose of an expression evaluates together with it, to the transposed matrix: the same
values at exchanged coordinates, edge numbers included. This holds over every graph that updates
lead to, accepted or refused. -/
theorem evaluate_transpose_eq (dim : UInt64) (updates : List Update) (e : Expression) :
    let graph := ofUpdates dim updates
    ((∃ m, graph.evaluate e.transpose = .ok m) ↔ ∃ m, graph.evaluate e = .ok m) ∧
      ∀ m, graph.evaluate e = .ok m → graph.evaluate e.transpose = .ok m.transpose := by
  intro graph
  have hresolve := (isSquare_ofUpdates dim updates).resolve
  exact ⟨hresolve.exists_evaluate_transpose_iff e, fun m hm => hresolve.evaluate_transpose hm⟩

/-- The third edge keeps its number when its hop is walked back; the refused one takes none. -/
theorem evaluate_transpose_eq_of_hop :
    let graph := ofUpdates 3 [.edge "R" 0 1, .edge "R" 5 0, .edge "R" 1 0, .edge "R" 2 0]
    let e : Expression := .hop ⟨"a"⟩ ⟨"b"⟩ (some "R") none
    ∃ m, graph.evaluate e = .ok m ∧ m.get? 2 0 = some 2 ∧
      graph.evaluate e.transpose = .ok m.transpose ∧ m.transpose.get? 0 2 = some 2 := by
  intro graph e
  obtain ⟨m, hm, hvalue⟩ : ∃ m, graph.evaluate e = .ok m ∧ m.get? 2 0 = some 2 :=
    ⟨_, rfl, by decide +kernel⟩
  obtain ⟨-, htranspose⟩ := evaluate_transpose_eq 3
    [.edge "R" 0 1, .edge "R" 5 0, .edge "R" 1 0, .edge "R" 2 0] e
  exact ⟨m, hm, hvalue, htranspose m hm, (m.get?_transpose 0 2).trans hvalue⟩

/-- Evaluating a chain is walking it. Over every graph that updates lead to, an expression fails
exactly when some mask is not registered, and then the first one is named. Otherwise its product is
square of the graph's size and stores a cell exactly when nodes lead from the row to the column,
each operand storing something for the two nodes it joins. A single operand keeps its values, and
several store ones. -/
theorem evaluate_eq_walks (dim : UInt64) (updates : List Update) {e : Expression}
    (he : e.Constructed) :
    let graph := ofUpdates dim updates
    (∀ error, graph.evaluate e = .error error ↔
        ∃ before name ident after, e.operands = before ++ .mask name ident :: after ∧
          (∀ known other, .mask known other ∈ before → graph.mask? known ≠ none) ∧
          graph.mask? name = none ∧ error = .unknownMask name) ∧
      ((∀ name ident, .mask name ident ∈ e.operands → graph.mask? name ≠ none) →
        ∃ m, graph.evaluate e = .ok m ∧ m.rows = dim ∧ m.cols = dim ∧
          (∀ i j, m.Stores i j ↔ ∃ node : Nat → UInt64, node 0 = i ∧ node e.operands.length = j ∧
            ∀ t (ht : t < e.operands.length),
              (graph.entry? e.operands[t] (node t) (node (t + 1))).isSome) ∧
          (2 ≤ e.operands.length → ∀ i j, m.Stores i j → m.get? i j = some 1) ∧
          ∀ operand, e.operands = [operand] → ∀ i j, m.get? i j = graph.entry? operand i j) := by
  intro graph
  have hdim : graph.dim = dim := dim_ofUpdates dim updates
  have hresolve := (isSquare_ofUpdates dim updates).resolve
  have hfails (error : AlgebraError) : graph.evaluate e = .error error ↔
      ∃ before name ident after, e.operands = before ++ .mask name ident :: after ∧
        (∀ known other, .mask known other ∈ before → graph.mask? known ≠ none) ∧
        graph.mask? name = none ∧ error = .unknownMask name :=
    (hresolve.evaluate_eq_error_iff he.operands_ne_nil error).trans findSome?_failure?_eq_some_iff
  refine ⟨hfails, fun hregistered => ?_⟩
  cases hm : graph.evaluate e with
  | error error =>
    obtain ⟨before, name, ident, after, hoperands, -, hmask, -⟩ := (hfails error).1 hm
    exact absurd hmask (hregistered name ident (by simp [hoperands]))
  | ok m =>
    have hsquare := hresolve.isSquare_of_evaluate hm
    refine ⟨m, rfl, hsquare.rows_eq.trans hdim, hsquare.cols_eq.trans hdim, fun i j => ?_,
      fun hlength => Expression.isPattern_of_evaluate hm hlength, fun operand hoperand i j => ?_⟩
    · rw [Expression.stores_evaluate_iff hm, Expression.walk_iff_exists_nodes]
      simp only [leads_resolve_iff]
    · exact get?_factor ((Expression.evaluate_singleton hoperand).symm.trans hm) i j

/-- Of two inhabitants the registered mask keeps one; a mask that is not registered is named. -/
theorem evaluate_eq_walks_of_mask :
    let graph := ofUpdates 4 [.edge "LIVES_IN" 1 2, .edge "LIVES_IN" 3 2, .mask "young" [3]]
    let chain (name : String) : Expression :=
      ⟨[.adjacency (some "LIVES_IN") ⟨"p"⟩ ⟨"c"⟩ true, .mask name ⟨"p"⟩], ⟨"c"⟩, ⟨"p"⟩, none⟩
    (∃ m, graph.evaluate (chain "young") = .ok m ∧ m.get? 2 3 = some 1) ∧
      graph.evaluate (chain "old") = .error (.unknownMask "old") := by
  intro graph chain
  have hchain (name : String) : (chain name).Constructed :=
    .ofOperands (show Expression.ofOperands (chain name).operands none = .ok (chain name) from rfl)
  have hwalks (name : String) := evaluate_eq_walks 4
    [.edge "LIVES_IN" 1 2, .edge "LIVES_IN" 3 2, .mask "young" [3]] (hchain name)
  constructor
  · obtain ⟨-, hok⟩ := hwalks "young"
    obtain ⟨m, hm, -, -, hstores, hones, -⟩ := hok (by
      intro name ident hmem
      obtain ⟨rfl, rfl⟩ : name = "young" ∧ ident = ⟨"p"⟩ := by simpa [chain] using hmem
      decide +kernel)
    have hwalk : m.Stores 2 3 := by
      have hback : (graph.entry? (.adjacency (some "LIVES_IN") ⟨"p"⟩ ⟨"c"⟩ true) 2 3).isSome := by
        decide +kernel
      have hmask : (graph.entry? (.mask "young" ⟨"p"⟩) 3 3).isSome := by decide +kernel
      refine (hstores 2 3).2 ⟨fun t => if t = 0 then 2 else 3, rfl, rfl, fun t ht => ?_⟩
      match t, ht with
      | 0, _ => exact hback
      | 1, _ => exact hmask
    exact ⟨m, hm, hones (by decide) 2 3 hwalk⟩
  · obtain ⟨hfails, -⟩ := hwalks "old"
    exact (hfails _).2 ⟨[_], "old", ⟨"p"⟩, [], rfl, by simp, by decide +kernel, rfl⟩

end StoredGraph

end PatternTraversal
