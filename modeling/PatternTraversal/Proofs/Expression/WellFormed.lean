import Mathlib.Data.List.Chain
import PatternTraversal.Proofs.Expression.Construction

/-!
# Well-formed expressions

A list of operands makes an expression when it is not empty and each operand ends where the next one
starts; otherwise it is refused at the first place where this fails. Hops, label tests and
transposes are put together without this test, but it would accept each of them as it is: the chain
of a constructed expression is aligned, and a reversed chain of transposed operands is aligned
again.
-/

namespace PatternTraversal

/-- The first operand ends where the second one starts. -/
def Operand.Meets (one two : Operand) : Prop := one.colAlias = two.rowAlias

instance (one two : Operand) : Decidable (one.Meets two) :=
  inferInstanceAs (Decidable (one.colAlias = two.rowAlias))

namespace Expression

variable {operands : List Operand} {edge : Option Alias} {e : Expression}

/-- A chain has no break exactly when each operand meets the next one. -/
theorem misalignment?_eq_none_iff (position : ℕ) (first : Operand) (rest : List Operand) :
    misalignment? position first.colAlias rest = none ↔ (first :: rest).IsChain Operand.Meets := by
  induction rest generalizing position first with
  | nil => simp [misalignment?]
  | cons second rest ih =>
    rw [misalignment?, List.isChain_cons_cons]
    split
    next hmeets => exact (ih _ second).trans (and_iff_right hmeets).symm
    next hbreak => exact iff_of_false (Option.some_ne_none _) fun h => hbreak h.1

/-- The first break of a list of operands is behind `one`: the operands up to it meet one another,
and `one` does not meet `two`, the next one. -/
structure IsFirstBreak (operands : List Operand) (p : ℕ) (one two : Operand) : Prop where
  one_at : operands[p]? = some one
  two_at : operands[p + 1]? = some two
  meets : (operands.take (p + 1)).IsChain Operand.Meets
  breaks : ¬one.Meets two

/-- A break behind the first operand. -/
theorem isFirstBreak_zero_iff {first second : Operand} {rest : List Operand} {one two : Operand} :
    IsFirstBreak (first :: second :: rest) 0 one two ↔
      first = one ∧ second = two ∧ ¬first.Meets second := by
  constructor
  · rintro ⟨hone, htwo, -, hbreak⟩
    obtain rfl : first = one := Option.some.inj hone
    obtain rfl : second = two := Option.some.inj htwo
    exact ⟨rfl, rfl, hbreak⟩
  · rintro ⟨rfl, rfl, hbreak⟩
    exact ⟨rfl, rfl, List.isChain_singleton _, hbreak⟩

/-- A break behind a later operand is one of the operands behind the first one, which is met. -/
theorem isFirstBreak_succ_iff {first second : Operand} {rest : List Operand} {p : ℕ}
    {one two : Operand} :
    IsFirstBreak (first :: second :: rest) (p + 1) one two ↔
      first.Meets second ∧ IsFirstBreak (second :: rest) p one two := by
  constructor
  · rintro ⟨hone, htwo, hmeets, hbreak⟩
    rw [List.take_succ_cons, List.take_succ_cons, List.isChain_cons_cons] at hmeets
    exact ⟨hmeets.1, hone, htwo, hmeets.2, hbreak⟩
  · rintro ⟨hfirst, hone, htwo, hmeets, hbreak⟩
    refine ⟨hone, htwo, ?_, hbreak⟩
    rw [List.take_succ_cons, List.take_succ_cons, List.isChain_cons_cons]
    exact ⟨hfirst, hmeets⟩

/-- A chain is refused at its first break. -/
theorem misalignment?_eq_some_iff (position : ℕ) (first : Operand) (rest : List Operand)
    (error : AlgebraError) :
    misalignment? position first.colAlias rest = some error ↔
      ∃ p one two, IsFirstBreak (first :: rest) p one two ∧
        error = .misaligned (position + p) one.colAlias two.rowAlias := by
  induction rest generalizing position first with
  | nil =>
    refine iff_of_false (by simp [misalignment?]) ?_
    rintro ⟨p, one, two, hbreak, -⟩
    cases hbreak.two_at
  | cons second rest ih =>
    rw [← Nat.or_exists_add_one, misalignment?]
    simp only [isFirstBreak_zero_iff, isFirstBreak_succ_iff]
    have hmeets : first.Meets second ↔ first.colAlias = second.rowAlias := Iff.rfl
    split
    next hfirst => simp [hmeets, hfirst, ih, Nat.add_assoc, Nat.add_comm 1]
    next hfirst => simp [hmeets, hfirst, eq_comm (a := error)]

/-! ## Accepted lists -/

/-- A chain ends where its last operand does. -/
theorem getLast?_map_colAlias (first : Operand) (rest : List Operand) :
    (first :: rest).getLast?.map Operand.colAlias = some (endAlias first.colAlias rest) := by
  induction rest generalizing first with
  | nil => rfl
  | cons second rest ih => rw [List.getLast?_cons_cons, ih, endAlias]

/-- An accepted list of operands becomes the chain of the expression and gives it its ends. -/
theorem parts_of_ofOperands (h : ofOperands operands edge = .ok e) :
    e.operands = operands ∧ e.edge = edge ∧ operands.head?.map Operand.rowAlias = some e.source ∧
      operands.getLast?.map Operand.colAlias = some e.target := by
  obtain ⟨first, rest, rfl, -, rfl⟩ := ofOperands_eq_ok_iff.1 h
  exact ⟨rfl, rfl, rfl, getLast?_map_colAlias first rest⟩

/-- The lists that are accepted. -/
theorem exists_ofOperands_iff :
    (∃ e, ofOperands operands edge = .ok e) ↔
      operands ≠ [] ∧ operands.IsChain Operand.Meets := by
  simp only [ofOperands_eq_ok_iff]
  cases operands with
  | nil => simp
  | cons first rest => simp [misalignment?_eq_none_iff]

/-- The lists that are refused, and why. -/
theorem ofOperands_eq_error_iff (error : AlgebraError) :
    ofOperands operands edge = .error error ↔
      operands = [] ∧ error = .emptyChain ∨
        ∃ p one two, IsFirstBreak operands p one two ∧
          error = .misaligned (p + 1) one.colAlias two.rowAlias := by
  cases operands with
  | nil =>
    have hnone (p : ℕ) (one two : Operand) : ¬IsFirstBreak [] p one two := fun h => by
      cases h.one_at
    simp [ofOperands, hnone, eq_comm]
  | cons first rest =>
    have hsome := misalignment?_eq_some_iff 1 first rest error
    simp only [Nat.add_comm 1] at hsome
    rw [← hsome, ofOperands]
    cases misalignment? 1 first.colAlias rest with
    | none => simp
    | some found => simp

/-! ## Constructed expressions -/

/-- A chain that leads from one alias to another has no break and ends at that alias. -/
theorem Aligned.endAlias_eq {start ends : Alias} (h : Aligned start operands ends)
    (position : ℕ) :
    misalignment? position start operands = none ∧ endAlias start operands = ends := by
  induction operands generalizing start position with
  | nil => exact ⟨rfl, h⟩
  | cons operand rest ih =>
    rw [misalignment?, if_pos h.1.symm]
    exact ih h.2 (position + 1)

/-- The chain of a constructed expression makes this expression. -/
theorem Constructed.ofOperands_eq (h : e.Constructed) :
    Expression.ofOperands e.operands e.edge = .ok e := by
  have haligned := h.aligned
  obtain ⟨first, rest, hoperands⟩ := List.exists_cons_of_ne_nil h.operands_ne_nil
  rw [hoperands] at haligned
  obtain ⟨hnone, hend⟩ := haligned.2.endAlias_eq 1
  rw [ofOperands_eq_ok_iff]
  refine ⟨first, rest, hoperands, hnone, ?_⟩
  rw [hend, haligned.1, ← hoperands]

/-- A list of operands is accepted exactly when it is not empty and each operand ends where the next
one starts; it becomes the chain of the expression, whose ends are those of the chain. An empty list
is refused as such, and every other one at its first break. The chain of each constructed expression
makes this expression, and so does the one of its transpose. The transpose has the two ends
exchanged and the same relationship variable, filters only if the expression does, has the same
entities, and transposed again it is the expression. -/
theorem constructed_wellFormed :
    (∀ operands edge,
      ((∃ e, ofOperands operands edge = .ok e) ↔
        operands ≠ [] ∧ operands.IsChain Operand.Meets) ∧
      (∀ e, ofOperands operands edge = .ok e →
        e.operands = operands ∧ e.edge = edge ∧
          operands.head?.map Operand.rowAlias = some e.source ∧
          operands.getLast?.map Operand.colAlias = some e.target) ∧
      ∀ error, ofOperands operands edge = .error error ↔
        operands = [] ∧ error = .emptyChain ∨
          ∃ p one two, IsFirstBreak operands p one two ∧
            error = .misaligned (p + 1) one.colAlias two.rowAlias) ∧
    ∀ e : Expression, e.Constructed →
      ofOperands e.operands e.edge = .ok e ∧
        ofOperands e.transpose.operands e.edge = .ok e.transpose ∧
        e.transpose.source = e.target ∧ e.transpose.target = e.source ∧
        e.transpose.edge = e.edge ∧ e.transpose.isLabelOnly = e.isLabelOnly ∧
        (∀ ident, ident ∈ e.transpose.entities ↔ ident ∈ e.entities) ∧
        e.transpose.transpose = e := by
  refine ⟨fun operands edge => ⟨exists_ofOperands_iff, fun e => parts_of_ofOperands,
    ofOperands_eq_error_iff⟩, fun e he => ?_⟩
  exact ⟨he.ofOperands_eq, he.transpose.ofOperands_eq, rfl, rfl, rfl, e.isLabelOnly_transpose,
    fun ident => e.entities_transpose_perm.mem_iff, e.transpose_transpose⟩

/-- A relationship, a mask and a relationship walked back, from one node to another: the chain is
accepted, and so is the reversed one. With another mask it breaks behind the first operand. -/
theorem constructed_wellFormed_of_mask :
    let chain (ident : Alias) : List Operand := [.adjacency (some "R") ⟨"a"⟩ ⟨"b"⟩ false,
      .mask "m" ident, .adjacency none ⟨"c"⟩ ⟨"b"⟩ true]
    ofOperands (chain ⟨"d"⟩) none = .error (.misaligned 1 ⟨"b"⟩ ⟨"d"⟩) ∧
      ∃ e, ofOperands (chain ⟨"b"⟩) (some ⟨"r"⟩) = .ok e ∧ e.Constructed ∧
        e.source = ⟨"a"⟩ ∧ e.target = ⟨"c"⟩ ∧
        ofOperands e.transpose.operands (some ⟨"r"⟩) = .ok e.transpose ∧
        e.transpose.source = ⟨"c"⟩ ∧ (⟨"a"⟩ ∈ e.transpose.entities) ∧
        e.transpose.isLabelOnly = false ∧ e.transpose.transpose = e := by
  intro chain
  obtain ⟨hlists, hconstructed⟩ := constructed_wellFormed
  have hrefused : ofOperands (chain ⟨"d"⟩) none = .error (.misaligned 1 ⟨"b"⟩ ⟨"d"⟩) :=
    ((hlists _ _).2.2 _).2 (.inr ⟨0, _, _, ⟨rfl, rfl, List.isChain_singleton _, by decide⟩, rfl⟩)
  have hchain : (chain ⟨"b"⟩).IsChain Operand.Meets := by
    simp [chain, Operand.Meets, Operand.rowAlias, Operand.colAlias]
  obtain ⟨e, he⟩ := (hlists _ (some ⟨"r"⟩)).1.2 ⟨List.cons_ne_nil _ _, hchain⟩
  obtain ⟨-, hedge, hsource, htarget⟩ := (hlists _ _).2.1 e he
  have hsource : e.source = ⟨"a"⟩ := (Option.some.inj hsource).symm
  have htarget : e.target = ⟨"c"⟩ := (Option.some.inj htarget).symm
  obtain ⟨-, hback, hback_source, -, -, hfilters, hentities, htwice⟩ :=
    hconstructed e (.ofOperands he)
  refine ⟨hrefused, e, he, .ofOperands he, hsource, htarget, hedge ▸ hback,
    hback_source.trans htarget, (hentities _).2 ?_, hfilters.trans ?_, htwice⟩
  · simp [mem_entities_iff, references, hsource]
  · simp [isLabelOnly, hsource, htarget]

end Expression

end PatternTraversal
