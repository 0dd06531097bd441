import PatternTraversal.Proofs.Expression.Walks
import PatternTraversal.Proofs.StoredGraph.Reachable

/-!
# Satisfied expressions

An assignment of nodes to aliases satisfies an expression when its product stores the cell of the
two endpoints. Over a graph that updates lead to, an expression and its transpose are satisfied by
the same assignments.
-/

namespace PatternTraversal

namespace StoredGraph

variable {graph : StoredGraph}

/-- The matrix of a label or mask operand is square and diagonal. -/
theorem IsSquare.resolve_diagonal (h : graph.IsSquare) {operand : Operand}
    (hdiagonal : operand.isDiagonal = true) {m : SparseMatrix}
    (hm : graph.resolve operand = .ok m) :
    m.IsSquare graph.dim ∧ m.IsDiagonal := by
  cases operand with
  | adjacency => simp [Operand.isDiagonal] at hdiagonal
  | label name ident =>
    obtain rfl := Except.ok.inj hm
    exact forall_getD h.labels graph.isSquare_blank name
  | mask name ident =>
    cases hmask : graph.mask? name with
    | none => simp [resolve, hmask] at hm
    | some stored =>
      obtain rfl : stored = m := by simpa [resolve, hmask] using hm
      exact h.masks name stored hmask

/-- The matrices behind the operands are square. -/
theorem IsSquare.resolve (h : graph.IsSquare) :
    Expression.Resolver.IsSquare graph.resolve graph.dim where
  square operand m hm := by
    cases operand with
    | adjacency relation source target transposed =>
      cases relation with
      | none => exact Except.ok.inj hm ▸ h.adjacency
      | some relation =>
        obtain rfl := Except.ok.inj hm
        exact forall_getD h.relations graph.isSquare_blank.1 relation
    | label name ident => exact (h.resolve_diagonal rfl hm).1
    | mask name ident => exact (h.resolve_diagonal rfl hm).1
  diagonal operand m hdiagonal hm := (h.resolve_diagonal hdiagonal hm).2
  transpose operand := by
    cases operand with
    | adjacency relation source target transposed => cases relation <;> rfl
    | label name ident => rfl
    | mask name ident => rfl

/-- Whether the product of an expression can be formed. -/
def Evaluates (graph : StoredGraph) (e : Expression) : Prop := ∃ m, graph.evaluate e = .ok m

/-- Whether an assignment of nodes to aliases satisfies an expression: its product can be formed and
stores an entry for the nodes of its endpoints. -/
def Satisfies (graph : StoredGraph) (node : Alias → UInt64) (e : Expression) : Prop :=
  ∃ m, graph.evaluate e = .ok m ∧ m.Stores (node e.source) (node e.target)

instance (graph : StoredGraph) (node : Alias → UInt64) (e : Expression) :
    Decidable (graph.Satisfies node e) :=
  match h : graph.evaluate e with
  | .ok m => decidable_of_iff (m.Stores (node e.source) (node e.target)) (by simp [Satisfies, h])
  | .error _ => isFalse (by simp [Satisfies, h])

/-- A satisfied expression evaluates. -/
theorem Satisfies.evaluates {node : Alias → UInt64} {e : Expression}
    (h : graph.Satisfies node e) : graph.Evaluates e :=
  h.imp fun _ hm => hm.1

/-- An expression and its transpose evaluate together. -/
theorem IsSquare.evaluates_transpose_iff (h : graph.IsSquare) (e : Expression) :
    graph.Evaluates e.transpose ↔ graph.Evaluates e :=
  h.resolve.exists_evaluate_transpose_iff e

/-- An expression and its transpose are satisfied by the same assignments. -/
theorem IsSquare.satisfies_transpose_iff (h : graph.IsSquare) (node : Alias → UInt64)
    (e : Expression) : graph.Satisfies node e.transpose ↔ graph.Satisfies node e := by
  constructor
  · rintro ⟨reversed, hreversed, hstores⟩
    obtain ⟨m, hm⟩ := (h.evaluates_transpose_iff e).1 ⟨reversed, hreversed⟩
    exact ⟨m, hm, (h.resolve.stores_evaluate_transpose_iff hm hreversed _ _).1 hstores⟩
  · rintro ⟨m, hm, hstores⟩
    obtain ⟨reversed, hreversed⟩ := (h.evaluates_transpose_iff e).2 ⟨m, hm⟩
    exact ⟨reversed, hreversed,
      (h.resolve.stores_evaluate_transpose_iff hm hreversed _ _).2 hstores⟩

end StoredGraph

end PatternTraversal
