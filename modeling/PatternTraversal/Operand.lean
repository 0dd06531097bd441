import PatternTraversal.Alias

/-!
# Operands

The factors of a hop's matrix product. A relationship matrix leads from one alias to another and can
be used transposed; labels and masks are diagonal, so they lead from an alias to itself and their
transposes are themselves.
-/

namespace PatternTraversal

/-- One factor of a product. -/
inductive Operand where
  /-- Relationship matrix, whose stored rows are indexed by `source` and columns by `target`;
  without a relation it is the adjacency of every relationship. -/
  | adjacency (relation : Option String) (source target : Alias) (transposed : Bool)
  /-- Diagonal matrix of a label. -/
  | label (name : String) (ident : Alias)
  /-- Diagonal mask, looked up by name on evaluation. -/
  | mask (name : String) (ident : Alias)
deriving DecidableEq, Repr

namespace Operand

/-- Alias indexing the rows, as used in the product. -/
def rowAlias : Operand → Alias
  | adjacency _ source target transposed => if transposed then target else source
  | label _ ident => ident
  | mask _ ident => ident

/-- Alias indexing the columns, as used in the product. -/
def colAlias : Operand → Alias
  | adjacency _ source target transposed => if transposed then source else target
  | label _ ident => ident
  | mask _ ident => ident

/-- Whether the stored matrix is transposed before use. -/
def isTransposed : Operand → Bool
  | adjacency _ _ _ transposed => transposed
  | _ => false

/-- Whether the factor is a label or a mask. -/
def isDiagonal : Operand → Bool
  | adjacency .. => false
  | _ => true

/-- The factor used the other way round. -/
def transpose : Operand → Operand
  | adjacency relation source target transposed => adjacency relation source target (!transposed)
  | diagonal => diagonal

/-- Text of a factor: `R(a->b)`, with a prime when transposed and `*` for every relationship,
`:L(a)` for a label, `mask:m(a)` for a mask. -/
def render : Operand → String
  | adjacency relation source target transposed =>
    relation.getD "*" ++ "(" ++ source.name ++ "->" ++ target.name ++ ")" ++
      (if transposed then "'" else "")
  | label name ident => ":" ++ name ++ "(" ++ ident.name ++ ")"
  | mask name ident => "mask:" ++ name ++ "(" ++ ident.name ++ ")"

/-- Transposing twice gives the factor back. -/
@[simp] theorem transpose_transpose (operand : Operand) :
    operand.transpose.transpose = operand := by
  cases operand <;> simp [transpose]

/-- Transposing exchanges the two aliases. -/
@[simp] theorem rowAlias_transpose (operand : Operand) :
    operand.transpose.rowAlias = operand.colAlias := by
  cases operand with
  | adjacency _ _ _ transposed => cases transposed <;> rfl
  | label _ _ => rfl
  | mask _ _ => rfl

/-- The column alias of a transposed factor was its row alias. -/
@[simp] theorem colAlias_transpose (operand : Operand) :
    operand.transpose.colAlias = operand.rowAlias := by
  cases operand with
  | adjacency _ _ _ transposed => cases transposed <;> rfl
  | label _ _ => rfl
  | mask _ _ => rfl

/-- Transposing keeps the kind of factor. -/
@[simp] theorem isDiagonal_transpose (operand : Operand) :
    operand.transpose.isDiagonal = operand.isDiagonal := by
  cases operand <;> rfl

end Operand

end PatternTraversal
