import PatternTraversal.Expression.Basic

/-!
# Constructed expressions

Expressions come from a hop, a label test, an aligned chain of operands or the transpose of another
expression. None of them has an empty chain, and the chain of each of them leads from its source
alias to its target alias.
-/

namespace PatternTraversal

namespace Expression

/-- A chain leads from one alias to another, each operand starting where the one before it ends. -/
def Aligned : Alias → List Operand → Alias → Prop
  | start, [], ends => start = ends
  | start, operand :: rest, ends => operand.rowAlias = start ∧ Aligned operand.colAlias rest ends

/-- Expressions that the constructors and transposing lead to. -/
inductive Constructed : Expression → Prop where
  | hop (source target : Alias) (relation : Option String) (edge : Option Alias) :
    Constructed (hop source target relation edge)
  | labelScan (ident : Alias) (label : String) : Constructed (labelScan ident label)
  | ofOperands {operands : List Operand} {edge : Option Alias} {e : Expression}
    (h : ofOperands operands edge = .ok e) : Constructed e
  | withEndpoints {source target : Alias} {operands : List Operand} {edge : Option Alias}
    {e : Expression} (h : withEndpoints source target operands edge = .ok e) : Constructed e
  | transpose {e : Expression} (h : Constructed e) : Constructed e.transpose

variable {operands : List Operand} {edge : Option Alias} {e : Expression}

/-- A chain gives an expression when it has operands and is aligned. -/
theorem ofOperands_eq_ok_iff : ofOperands operands edge = .ok e ↔
    ∃ first rest, operands = first :: rest ∧ misalignment? 1 first.colAlias rest = none ∧
      e = ⟨first :: rest, first.rowAlias, endAlias first.colAlias rest, edge⟩ := by
  cases operands with
  | nil => simp [ofOperands]
  | cons first rest =>
    simp only [ofOperands, List.cons.injEq, exists_and_left, and_assoc, exists_eq_left']
    cases misalignment? 1 first.colAlias rest with
    | none => simp [eq_comm]
    | some error => simp

/-- An expression with declared endpoints is the one of its chain. -/
theorem ofOperands_of_withEndpoints {source target : Alias}
    (h : withEndpoints source target operands edge = .ok e) : ofOperands operands edge = .ok e := by
  unfold withEndpoints at h
  cases hchain : ofOperands operands edge with
  | error error => simp [hchain] at h
  | ok found =>
    simp only [hchain] at h
    split at h
    · exact h
    · cases h

/-- A chain without a break leads to the alias at which it ends. -/
theorem aligned_of_misalignment? {position : Nat} {start : Alias}
    (h : misalignment? position start operands = none) :
    Aligned start operands (endAlias start operands) := by
  induction operands generalizing position start with
  | nil => rfl
  | cons operand rest ih =>
    unfold misalignment? at h
    split at h
    next hstart => exact ⟨hstart.symm, ih h⟩
    next => cases h

/-- Two chains in a row lead on where they meet. -/
theorem aligned_append_iff {start ends : Alias} {before after : List Operand} :
    Aligned start (before ++ after) ends ↔
      ∃ meet, Aligned start before meet ∧ Aligned meet after ends := by
  induction before generalizing start with
  | nil => simp [Aligned]
  | cons operand rest ih => simp [Aligned, ih, and_assoc]

/-- The reversed chain of transposed operands leads back. -/
theorem Aligned.reverse {start ends : Alias} (h : Aligned start operands ends) :
    Aligned ends (operands.reverse.map Operand.transpose) start := by
  induction operands generalizing start with
  | nil => exact Eq.symm h
  | cons operand rest ih =>
    have hlast : Aligned operand.colAlias [operand.transpose] start :=
      ⟨operand.rowAlias_transpose, operand.colAlias_transpose.trans h.1⟩
    rw [List.reverse_cons, List.map_append]
    exact aligned_append_iff.2 ⟨operand.colAlias, ih h.2, hlast⟩

/-- The chain of a constructed expression leads from its source alias to its target alias. -/
theorem Constructed.aligned (h : e.Constructed) : Aligned e.source e.operands e.target := by
  have hchain {operands : List Operand} {edge : Option Alias} {e : Expression}
      (h : Expression.ofOperands operands edge = .ok e) :
      Aligned e.source e.operands e.target := by
    obtain ⟨first, rest, _, hrest, rfl⟩ := ofOperands_eq_ok_iff.1 h
    exact ⟨rfl, aligned_of_misalignment? hrest⟩
  induction h with
  | hop source target relation edge => exact ⟨rfl, rfl⟩
  | labelScan ident label => exact ⟨rfl, rfl⟩
  | ofOperands h => exact hchain h
  | withEndpoints h => exact hchain (ofOperands_of_withEndpoints h)
  | transpose _ ih => exact ih.reverse

/-- A constructed expression has operands. -/
theorem Constructed.operands_ne_nil (h : e.Constructed) : e.operands ≠ [] := by
  have hchain {operands : List Operand} {edge : Option Alias} {e : Expression}
      (h : Expression.ofOperands operands edge = .ok e) : e.operands ≠ [] := by
    obtain ⟨first, rest, _, _, rfl⟩ := ofOperands_eq_ok_iff.1 h
    exact List.cons_ne_nil first rest
  induction h with
  | hop source target relation edge => exact List.cons_ne_nil _ _
  | labelScan ident label => exact List.cons_ne_nil _ _
  | ofOperands h => exact hchain h
  | withEndpoints h => exact hchain (ofOperands_of_withEndpoints h)
  | transpose _ ih => simpa [Expression.transpose] using ih

end Expression

end PatternTraversal
