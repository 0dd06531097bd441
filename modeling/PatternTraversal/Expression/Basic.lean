import PatternTraversal.AlgebraError
import PatternTraversal.Operand

/-!
# Expressions

One hop of a pattern, written as a product of operands. The rows of the product are indexed by the
entities of the source alias and its columns by those of the target alias, so each operand has to
start where the one before it ends. Reversing the chain and transposing each factor transposes the
product.
-/

namespace PatternTraversal

/-- A product of operands, with the aliases it leads from and to and the relationship variable it
binds. -/
structure Expression where
  operands : List Operand
  source : Alias
  target : Alias
  edge : Option Alias
deriving DecidableEq, Repr

namespace Expression

/-- The first place, counted from `position`, where a chain continuing from alias `ends` breaks. -/
def misalignment? (position : Nat) (ends : Alias) : List Operand → Option AlgebraError
  | [] => none
  | operand :: rest =>
    if ends = operand.rowAlias then misalignment? (position + 1) operand.colAlias rest
    else some (.misaligned position ends operand.rowAlias)

/-- Alias at which a chain starting from alias `start` ends. -/
def endAlias (start : Alias) : List Operand → Alias
  | [] => start
  | operand :: rest => endAlias operand.colAlias rest

/-- The expression of an aligned, non-empty chain; its endpoints are those of the chain. -/
def ofOperands (operands : List Operand) (edge : Option Alias) : Except AlgebraError Expression :=
  match operands with
  | [] => .error .emptyChain
  | first :: rest =>
    match misalignment? 1 first.colAlias rest with
    | some error => .error error
    | none =>
      .ok ⟨first :: rest, first.rowAlias, endAlias first.colAlias rest, edge⟩

/-- The expression of a chain that has to span the declared endpoints. -/
def withEndpoints (source target : Alias) (operands : List Operand) (edge : Option Alias) :
    Except AlgebraError Expression :=
  match ofOperands operands edge with
  | .error error => .error error
  | .ok e =>
    if e.source = source ∧ e.target = target then .ok e
    else .error (.endpointMismatch source target e.source e.target)

/-- A single relationship. -/
def hop (source target : Alias) (relation : Option String) (edge : Option Alias) : Expression :=
  ⟨[.adjacency relation source target false], source, target, edge⟩

/-- A label test on one alias. -/
def labelScan (ident : Alias) (label : String) : Expression :=
  ⟨[.label label ident], ident, ident, none⟩

/-- The reversed chain of transposed factors, whose product is the transposed product. -/
def transpose (e : Expression) : Expression :=
  ⟨e.operands.reverse.map Operand.transpose, e.target, e.source, e.edge⟩

/-- Source and target alias, once when they coincide. -/
def entities (e : Expression) : List Alias :=
  if e.target = e.source then [e.source] else [e.source, e.target]

/-- Whether an alias is the source or the target. -/
def references (e : Expression) (ident : Alias) : Bool :=
  e.source == ident || e.target == ident

/-- Whether the expression only filters one entity: no relationship is traversed. -/
def isLabelOnly (e : Expression) : Bool :=
  e.source == e.target && e.operands.all Operand.isDiagonal

/-- Text of a product: its factors, separated by ` * `. -/
def render (e : Expression) : String := " * ".intercalate (e.operands.map Operand.render)

/-- An expression references exactly its entities. -/
theorem mem_entities_iff (e : Expression) (ident : Alias) :
    ident ∈ e.entities ↔ e.references ident = true := by
  unfold entities references
  by_cases h : e.target = e.source <;> simp [h, eq_comm (a := ident)]

/-- An entity is listed once. -/
theorem nodup_entities (e : Expression) : e.entities.Nodup := by
  unfold entities
  by_cases h : e.target = e.source <;> simp [h, eq_comm (a := e.source)]

/-- A transposed expression has the same entities. -/
theorem entities_transpose_perm (e : Expression) : e.transpose.entities.Perm e.entities := by
  by_cases h : e.target = e.source
  · simp [entities, transpose, h]
  · simpa [entities, transpose, h, eq_comm (a := e.source)] using List.Perm.swap _ _ _

/-- Transposing keeps what only filters. -/
theorem isLabelOnly_transpose (e : Expression) : e.transpose.isLabelOnly = e.isLabelOnly := by
  have hends : (e.target == e.source) = (e.source == e.target) := BEq.comm
  simp [isLabelOnly, transpose, hends, List.all_map, Function.comp_def]

/-- Transposing twice gives the expression back. -/
@[simp] theorem transpose_transpose (e : Expression) : e.transpose.transpose = e := by
  simp [transpose, List.map_reverse, Function.comp_def]

end Expression

end PatternTraversal
