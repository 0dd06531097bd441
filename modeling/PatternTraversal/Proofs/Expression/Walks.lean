import PatternTraversal.Expression.Evaluation
import PatternTraversal.Proofs.Matrix.Product

/-!
# Walks along a chain

A product of operands stores a cell exactly when a walk leads from the row to the column, one stored
entry of each factor after the other. Walking the reversed chain of transposed factors is walking
back, since a diagonal factor leads nowhere but to where it starts.
-/

namespace PatternTraversal

namespace Expression

/-- The stored matrices are square of size `n`, those of labels and masks diagonal, and the matrix
behind an operand does not depend on how it is used. -/
structure Resolver.IsSquare (resolve : Resolver) (n : UInt64) : Prop where
  square : ∀ operand m, resolve operand = .ok m → m.IsSquare n
  diagonal : ∀ operand m, operand.isDiagonal = true → resolve operand = .ok m → m.IsDiagonal
  transpose : ∀ operand, resolve operand.transpose = resolve operand

/-- Whether an operand has a stored matrix. -/
def Resolves (resolve : Resolver) (operand : Operand) : Prop := ∃ m, resolve operand = .ok m

/-- Whether the factor of an operand stores a cell. -/
def Leads (resolve : Resolver) (operand : Operand) (row col : UInt64) : Prop :=
  ∃ m, factor resolve operand = .ok m ∧ m.Stores row col

/-- Whether the factors of a chain lead from one node to another. -/
def Walk (resolve : Resolver) : List Operand → UInt64 → UInt64 → Prop
  | [], row, col => row = col
  | operand :: rest, row, col => ∃ k, Leads resolve operand row k ∧ Walk resolve rest k col

variable {resolve : Resolver} {n : UInt64}

/-- An operand has a factor when it has a stored matrix. -/
theorem exists_factor_iff (operand : Operand) :
    (∃ m, factor resolve operand = .ok m) ↔ Resolves resolve operand := by
  unfold factor Resolves
  cases resolve operand with
  | error error => simp
  | ok stored => simp

/-- What an operand leads to, told by its factor. -/
theorem leads_iff {operand : Operand} {m : SparseMatrix} (hm : factor resolve operand = .ok m)
    (row col : UInt64) : Leads resolve operand row col ↔ m.Stores row col := by
  simp [Leads, hm]

/-- The factor of a resolver of square matrices is square. -/
theorem Resolver.IsSquare.factor (h : resolve.IsSquare n) {operand : Operand} {m : SparseMatrix}
    (hm : factor resolve operand = .ok m) : m.IsSquare n := by
  unfold Expression.factor at hm
  cases hstored : resolve operand with
  | error error => simp [hstored] at hm
  | ok stored =>
    simp only [hstored, Except.ok.injEq] at hm
    have hsquare := h.square operand stored hstored
    subst hm
    split
    · exact hsquare.transpose
    · exact hsquare

/-- A label or mask leads nowhere but to where it starts. -/
theorem Resolver.IsSquare.eq_of_leads (h : resolve.IsSquare n) {operand : Operand}
    (hdiagonal : operand.isDiagonal = true) {row col : UInt64}
    (hleads : Leads resolve operand row col) : row = col := by
  obtain ⟨m, hm, hstores⟩ := hleads
  have huntouched : operand.isTransposed = false := by
    cases operand with
    | adjacency => simp [Operand.isDiagonal] at hdiagonal
    | label => rfl
    | mask => rfl
  unfold Expression.factor at hm
  cases hstored : resolve operand with
  | error error => simp [hstored] at hm
  | ok stored =>
    obtain rfl : stored = m := by simpa [hstored, huntouched] using hm
    exact h.diagonal operand stored hdiagonal hstored row col hstores

/-- A transposed operand leads back. -/
theorem Resolver.IsSquare.leads_transpose_iff (h : resolve.IsSquare n) (operand : Operand)
    (row col : UInt64) :
    Leads resolve operand.transpose row col ↔ Leads resolve operand col row := by
  cases operand with
  | adjacency relation source target transposed =>
    have hresolve := h.transpose (.adjacency relation source target transposed)
    unfold Leads Expression.factor
    rw [hresolve]
    cases resolve (.adjacency relation source target transposed) with
    | error error => simp
    | ok stored => cases transposed <;> simp [Operand.isTransposed, Operand.transpose]
  | label name ident =>
    constructor <;> intro hleads <;> obtain rfl := h.eq_of_leads rfl hleads <;> exact hleads
  | mask name ident =>
    constructor <;> intro hleads <;> obtain rfl := h.eq_of_leads rfl hleads <;> exact hleads

/-- A walk along two chains is one along the first and then one along the second. -/
theorem walk_append_iff (first second : List Operand) (row col : UInt64) :
    Walk resolve (first ++ second) row col ↔
      ∃ k, Walk resolve first row k ∧ Walk resolve second k col := by
  induction first generalizing row with
  | nil => simp [Walk]
  | cons operand rest ih =>
    simp only [List.cons_append, Walk, ih]
    constructor
    · rintro ⟨j, hj, k, hk, hcol⟩
      exact ⟨k, ⟨j, hj, hk⟩, hcol⟩
    · rintro ⟨k, ⟨j, hj, hk⟩, hcol⟩
      exact ⟨j, hj, k, hk, hcol⟩

/-- Walking the reversed chain of transposed operands is walking back. -/
theorem Resolver.IsSquare.walk_transpose_iff (h : resolve.IsSquare n) (operands : List Operand)
    (row col : UInt64) :
    Walk resolve (operands.reverse.map Operand.transpose) row col ↔
      Walk resolve operands col row := by
  induction operands generalizing col with
  | nil => exact eq_comm
  | cons operand rest ih =>
    rw [List.reverse_cons, List.map_append, walk_append_iff]
    simp only [ih, List.map_cons, List.map_nil, Walk, h.leads_transpose_iff]
    constructor
    · rintro ⟨k, hk, _, hlead, rfl⟩
      exact ⟨k, hlead, hk⟩
    · rintro ⟨k, hlead, hk⟩
      exact ⟨k, hk, col, hlead, rfl⟩

/-- A chain behind a matrix evaluates when all its operands have stored matrices. -/
theorem Resolver.IsSquare.exists_evaluateFrom_iff (h : resolve.IsSquare n) (operands : List Operand)
    {left : SparseMatrix} (hleft : left.cols = n) :
    (∃ m, evaluateFrom resolve left operands = .ok m) ↔
      ∀ operand ∈ operands, Resolves resolve operand := by
  induction operands generalizing left with
  | nil => simp [evaluateFrom]
  | cons operand rest ih =>
    rw [List.forall_mem_cons, evaluateFrom, ← exists_factor_iff]
    cases hfactor : Expression.factor resolve operand with
    | error error => simp
    | ok right =>
      have hsquare := h.factor hfactor
      obtain ⟨product, hproduct⟩ : ∃ product, left.multiply .anyPair right = .ok product :=
        SparseMatrix.multiply_eq_ok (hleft.trans hsquare.rows_eq.symm)
      have hcols : product.cols = n :=
        (SparseMatrix.shape_of_multiply hproduct).2.trans hsquare.cols_eq
      simp only [hproduct, ih hcols]
      exact ⟨fun hrest => ⟨⟨right, rfl⟩, hrest⟩, fun hall => hall.2⟩

/-- A chain behind a matrix stores the cells that an entry of the matrix and a walk lead to. -/
theorem stores_evaluateFrom_iff {operands : List Operand} {left m : SparseMatrix}
    (h : evaluateFrom resolve left operands = .ok m) (row col : UInt64) :
    m.Stores row col ↔ ∃ k, left.Stores row k ∧ Walk resolve operands k col := by
  induction operands generalizing left with
  | nil =>
    obtain rfl : left = m := Except.ok.inj h
    simp [Walk]
  | cons operand rest ih =>
    rw [evaluateFrom] at h
    cases hfactor : factor resolve operand with
    | error error => simp [hfactor] at h
    | ok right =>
      cases hproduct : left.multiply .anyPair right with
      | error error => simp [hfactor, hproduct] at h
      | ok product =>
        simp only [hfactor, hproduct] at h
        simp only [ih h, SparseMatrix.stores_multiply_iff hproduct, Walk, leads_iff hfactor]
        constructor
        · rintro ⟨k, ⟨j, hj, hk⟩, hwalk⟩
          exact ⟨j, hj, k, hk, hwalk⟩
        · rintro ⟨j, hj, k, hk, hwalk⟩
          exact ⟨k, ⟨j, hj, hk⟩, hwalk⟩

/-- An expression evaluates when it has operands and all of them have stored matrices. -/
theorem Resolver.IsSquare.exists_evaluate_iff (h : resolve.IsSquare n) (e : Expression) :
    (∃ m, e.evaluate resolve = .ok m) ↔
      e.operands ≠ [] ∧ ∀ operand ∈ e.operands, Resolves resolve operand := by
  unfold evaluate
  cases e.operands with
  | nil => simp
  | cons operand rest =>
    rw [List.forall_mem_cons, ← exists_factor_iff]
    cases hfactor : Expression.factor resolve operand with
    | error error => simp [hfactor]
    | ok left =>
      simp only [hfactor, h.exists_evaluateFrom_iff rest (h.factor hfactor).cols_eq]
      exact ⟨fun hrest => ⟨List.cons_ne_nil _ _, ⟨left, rfl⟩, hrest⟩, fun hall => hall.2.2⟩

/-- An expression stores the cells that its walks lead between. -/
theorem stores_evaluate_iff {e : Expression} {m : SparseMatrix} (h : e.evaluate resolve = .ok m)
    (row col : UInt64) : m.Stores row col ↔ Walk resolve e.operands row col := by
  unfold evaluate at h
  cases hoperands : e.operands with
  | nil => simp [hoperands] at h
  | cons operand rest =>
    cases hfactor : factor resolve operand with
    | error error => simp [hoperands, hfactor] at h
    | ok left =>
      simp only [hoperands, hfactor] at h
      simp only [stores_evaluateFrom_iff h, Walk, leads_iff hfactor]

/-- Transposing keeps whether an expression evaluates. -/
theorem Resolver.IsSquare.exists_evaluate_transpose_iff (h : resolve.IsSquare n) (e : Expression) :
    (∃ m, e.transpose.evaluate resolve = .ok m) ↔ ∃ m, e.evaluate resolve = .ok m := by
  rw [h.exists_evaluate_iff, h.exists_evaluate_iff]
  simp [Expression.transpose, Resolves, h.transpose]

/-- The transposed expression stores the transposed cells. -/
theorem Resolver.IsSquare.stores_evaluate_transpose_iff (h : resolve.IsSquare n) {e : Expression}
    {m reversed : SparseMatrix} (hm : e.evaluate resolve = .ok m)
    (hreversed : e.transpose.evaluate resolve = .ok reversed) (row col : UInt64) :
    reversed.Stores row col ↔ m.Stores col row := by
  rw [stores_evaluate_iff hreversed, stores_evaluate_iff hm]
  exact h.walk_transpose_iff e.operands row col

end Expression

end PatternTraversal
