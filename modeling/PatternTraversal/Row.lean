import PatternTraversal.Value

/-!
# Rows

What a procedure yields: values under column names, in the order of the columns.
-/

namespace PatternTraversal

/-- One row of named values. -/
structure Row where
  fields : List (String × Value)
deriving BEq, Repr, Inhabited

namespace Row

/-- Value of the first column of a name. -/
def get? (row : Row) (column : String) : Option Value := row.fields.lookup column

/-- Column names, in order. -/
def columns (row : Row) : List String := row.fields.map (·.1)

end Row

end PatternTraversal
