import PatternTraversal.Proofs.Expression.Walks

/-!
# What a chain evaluates to

Evaluation fails at the first operand without a stored matrix and nowhere else: the factors are
square matrices of one size, so every product can be formed and is one again. A single factor keeps
its stored values, while a longer chain stores ones. Hence the reversed chain of transposed factors
evaluates to the transposed matrix, with the values it stores.
-/

namespace PatternTraversal

namespace Expression

variable {resolve : Resolver} {n : UInt64} {operand : Operand} {operands rest : List Operand}
  {left m : SparseMatrix} {e : Expression}

/-- A chain goes on behind the product with its first factor. -/
theorem evaluateFrom_cons_eq_ok_iff : evaluateFrom resolve left (operand :: rest) = .ok m ↔
    ∃ right product, factor resolve operand = .ok right ∧
      left.multiply .anyPair right = .ok product ∧ evaluateFrom resolve product rest = .ok m := by
  rw [evaluateFrom]
  cases factor resolve operand with
  | error error => simp
  | ok right =>
    cases hproduct : left.multiply .anyPair right with
    | error error => simp [hproduct]
    | ok product => simp [hproduct]

/-- The product of an expression starts with its first factor. -/
theorem evaluate_eq_ok_iff : e.evaluate resolve = .ok m ↔
    ∃ operand rest left, e.operands = operand :: rest ∧ factor resolve operand = .ok left ∧
      evaluateFrom resolve left rest = .ok m := by
  unfold evaluate
  cases e.operands with
  | nil => simp
  | cons operand rest =>
    simp only [List.cons.injEq, and_assoc, exists_and_left, exists_eq_left']
    cases factor resolve operand with
    | error error => simp
    | ok left => simp

section Failure

/-- Why an operand has no stored matrix, if it has none. -/
def failure? (resolve : Resolver) (operand : Operand) : Option AlgebraError :=
  match resolve operand with
  | .error error => some error
  | .ok _ => none

/-- An operand without a stored matrix has no factor, for the same reason. -/
theorem factor_eq_error_iff {error : AlgebraError} :
    factor resolve operand = .error error ↔ failure? resolve operand = some error := by
  unfold factor failure?
  cases resolve operand with
  | error error => simp
  | ok stored => simp

/-- An operand with a factor has a stored matrix. -/
theorem failure?_eq_none_of_factor (hm : factor resolve operand = .ok m) :
    failure? resolve operand = none := by
  rw [Option.eq_none_iff_forall_ne_some]
  intro error herror
  rw [factor_eq_error_iff.2 herror] at hm
  cases hm

/-- A chain behind a matrix fails at its first operand without a stored matrix. -/
theorem Resolver.IsSquare.evaluateFrom_eq_error_iff (h : resolve.IsSquare n)
    (operands : List Operand) (hleft : left.cols = n) (error : AlgebraError) :
    evaluateFrom resolve left operands = .error error ↔
      operands.findSome? (failure? resolve) = some error := by
  induction operands generalizing left with
  | nil => simp [evaluateFrom]
  | cons operand rest ih =>
    rw [evaluateFrom, List.findSome?_cons]
    cases hfactor : Expression.factor resolve operand with
    | error first => simp [factor_eq_error_iff.1 hfactor]
    | ok right =>
      have hsquare := h.factor hfactor
      obtain ⟨product, hproduct⟩ : ∃ product, left.multiply .anyPair right = .ok product :=
        SparseMatrix.multiply_eq_ok (hleft.trans hsquare.rows_eq.symm)
      have hcols : product.cols = n :=
        (SparseMatrix.shape_of_multiply hproduct).2.trans hsquare.cols_eq
      simp only [failure?_eq_none_of_factor hfactor, hproduct]
      exact ih hcols

/-- An expression with operands fails at the first one without a stored matrix. -/
theorem Resolver.IsSquare.evaluate_eq_error_iff (h : resolve.IsSquare n) (hne : e.operands ≠ [])
    (error : AlgebraError) :
    e.evaluate resolve = .error error ↔ e.operands.findSome? (failure? resolve) = some error := by
  unfold evaluate
  cases hoperands : e.operands with
  | nil => exact absurd hoperands hne
  | cons operand rest =>
    rw [List.findSome?_cons]
    dsimp only
    cases hfactor : Expression.factor resolve operand with
    | error first => simp [factor_eq_error_iff.1 hfactor]
    | ok left =>
      simp only [failure?_eq_none_of_factor hfactor]
      exact h.evaluateFrom_eq_error_iff rest (h.factor hfactor).cols_eq error

end Failure

section Values

/-- A chain of square factors behind a square matrix evaluates to a square matrix. -/
theorem Resolver.IsSquare.isSquare_of_evaluateFrom (h : resolve.IsSquare n)
    (hleft : left.IsSquare n) (hm : evaluateFrom resolve left operands = .ok m) : m.IsSquare n := by
  induction operands generalizing left with
  | nil => exact Except.ok.inj hm ▸ hleft
  | cons operand rest ih =>
    obtain ⟨right, product, hfactor, hproduct, hrest⟩ := evaluateFrom_cons_eq_ok_iff.1 hm
    exact ih (hleft.multiply (h.factor hfactor) hproduct) hrest

/-- An expression over square matrices evaluates to a square matrix. -/
theorem Resolver.IsSquare.isSquare_of_evaluate (h : resolve.IsSquare n)
    (hm : e.evaluate resolve = .ok m) : m.IsSquare n := by
  obtain ⟨_, _, left, _, hfactor, hrest⟩ := evaluate_eq_ok_iff.1 hm
  exact h.isSquare_of_evaluateFrom (h.factor hfactor) hrest

/-- A chain behind a pattern evaluates to a pattern. -/
theorem isPattern_of_evaluateFrom (hleft : left.IsPattern)
    (hm : evaluateFrom resolve left operands = .ok m) : m.IsPattern := by
  induction operands generalizing left with
  | nil => exact Except.ok.inj hm ▸ hleft
  | cons operand rest ih =>
    obtain ⟨_, _, _, hproduct, hrest⟩ := evaluateFrom_cons_eq_ok_iff.1 hm
    exact ih (SparseMatrix.isPattern_of_multiply hproduct) hrest

/-- An expression of several factors stores ones only. -/
theorem isPattern_of_evaluate (hm : e.evaluate resolve = .ok m) (hlength : 2 ≤ e.operands.length) :
    m.IsPattern := by
  obtain ⟨first, rest, left, hoperands, _, hrest⟩ := evaluate_eq_ok_iff.1 hm
  cases rest with
  | nil => simp [hoperands] at hlength
  | cons second rest =>
    obtain ⟨_, _, _, hproduct, hrest⟩ := evaluateFrom_cons_eq_ok_iff.1 hrest
    exact isPattern_of_evaluateFrom (SparseMatrix.isPattern_of_multiply hproduct) hrest

/-- An expression of a single operand evaluates to its factor. -/
theorem evaluate_singleton (hoperands : e.operands = [operand]) :
    e.evaluate resolve = factor resolve operand := by
  unfold evaluate
  rw [hoperands]
  dsimp only
  cases factor resolve operand <;> rfl

end Values

/-- The factor of a transposed operand is the transposed factor. -/
theorem Resolver.IsSquare.factor_transpose (h : resolve.IsSquare n)
    (hm : Expression.factor resolve operand = .ok m) :
    Expression.factor resolve operand.transpose = .ok m.transpose := by
  have hdiagonal (hkind : operand.isDiagonal = true) (hsame : operand.transpose = operand) :
      Expression.factor resolve operand.transpose = .ok m.transpose := by
    have hleads : m.IsDiagonal := fun row col hstores => h.eq_of_leads hkind ⟨m, hm, hstores⟩
    rw [hsame, hm, hleads.transpose_eq (h.factor hm)]
  cases operand with
  | adjacency relation source target transposed =>
    have hresolve := h.transpose (.adjacency relation source target transposed)
    unfold Expression.factor at hm ⊢
    rw [hresolve]
    cases hstored : resolve (.adjacency relation source target transposed) with
    | error error => simp [hstored] at hm
    | ok stored =>
      simp only [hstored, Except.ok.injEq] at hm ⊢
      cases transposed with
      | false => exact congrArg SparseMatrix.transpose hm
      | true =>
        obtain rfl : stored.transpose = m := hm
        exact (SparseMatrix.transpose_transpose stored).symm
  | label name ident => exact hdiagonal rfl rfl
  | mask name ident => exact hdiagonal rfl rfl

/-- The transposed expression evaluates to the transposed matrix. -/
theorem Resolver.IsSquare.evaluate_transpose (h : resolve.IsSquare n)
    (hm : e.evaluate resolve = .ok m) : e.transpose.evaluate resolve = .ok m.transpose := by
  obtain ⟨operand, rest, left, hoperands, hfactor, _⟩ := evaluate_eq_ok_iff.1 hm
  cases rest with
  | nil =>
    -- a single factor keeps its values
    have hreversed : e.transpose.operands = [operand.transpose] := by
      simp [Expression.transpose, hoperands]
    rw [evaluate_singleton hoperands] at hm
    rw [evaluate_singleton hreversed, h.factor_transpose hm]
  | cons second rest =>
    -- both products store ones only, in the cells that walks lead between
    obtain ⟨reversed, hreversed⟩ := (h.exists_evaluate_transpose_iff e).2 ⟨m, hm⟩
    have hlength : 2 ≤ e.operands.length := by simp [hoperands]
    have hsame : e.transpose.operands.length = e.operands.length := by simp [Expression.transpose]
    have hsquare := h.isSquare_of_evaluate hm
    have hreversedSquare := h.isSquare_of_evaluate hreversed
    have hpattern := isPattern_of_evaluate hreversed (hsame ▸ hlength)
    rw [hreversed]
    refine congrArg Except.ok (hpattern.eq_of_stores (isPattern_of_evaluate hm hlength).transpose
      (hreversedSquare.rows_eq.trans hsquare.cols_eq.symm)
      (hreversedSquare.cols_eq.trans hsquare.rows_eq.symm) fun row col => ?_)
    rw [SparseMatrix.stores_transpose]
    exact h.stores_evaluate_transpose_iff hm hreversed row col

/-- A walk along a chain, told by the nodes it passes. -/
theorem walk_iff_exists_nodes (operands : List Operand) (row col : UInt64) :
    Walk resolve operands row col ↔
      ∃ node : Nat → UInt64, node 0 = row ∧ node operands.length = col ∧
        ∀ t (ht : t < operands.length), Leads resolve operands[t] (node t) (node (t + 1)) := by
  induction operands generalizing row with
  | nil =>
    constructor
    · rintro rfl
      exact ⟨fun _ => row, rfl, rfl, fun t ht => absurd ht (Nat.not_lt_zero t)⟩
    · rintro ⟨node, hrow, hcol, _⟩
      exact hrow.symm.trans hcol
  | cons operand rest ih =>
    constructor
    · rintro ⟨k, hlead, hwalk⟩
      obtain ⟨node, rfl, hlast, hsteps⟩ := (ih k).1 hwalk
      refine ⟨fun t => t.casesOn row node, rfl, hlast, fun t ht => ?_⟩
      cases t with
      | zero => exact hlead
      | succ t => exact hsteps t (Nat.lt_of_succ_lt_succ ht)
    · rintro ⟨node, rfl, hlast, hsteps⟩
      have hrest : ∀ t (ht : t < rest.length),
          Leads resolve rest[t] (node (t + 1)) (node (t + 1 + 1)) :=
        fun t ht => hsteps (t + 1) (Nat.succ_lt_succ ht)
      exact ⟨node 1, hsteps 0 (Nat.zero_lt_succ _),
        (ih (node 1)).2 ⟨fun t => node (t + 1), rfl, hlast, hrest⟩⟩

end Expression

end PatternTraversal
