/-!
# Values

Literals of predicates, arguments of procedures and fields of their rows. Equality is that of the
payloads, floats comparing as numbers do: a value holding a NaN differs from itself, and the two
zeros are equal.
-/

namespace PatternTraversal

/-- A value that carries its own type. -/
inductive Value where
  | null
  | bool (b : Bool)
  | int (n : Int64)
  | float (x : Float)
  | string (s : String)
  | array (items : List Value)
deriving BEq, Repr, Inhabited

namespace Value

/-- Type name used in diagnostics. -/
def typeName : Value → String
  | null => "null"
  | bool _ => "bool"
  | int _ => "int"
  | float _ => "float"
  | string _ => "string"
  | array _ => "array"

/-- Whether the value is the null literal. -/
def isNull : Value → Bool
  | null => true
  | _ => false

/-- The text of a string value. -/
def asString? : Value → Option String
  | string s => some s
  | _ => none

/-- The items of an array value. -/
def asArray? : Value → Option (List Value)
  | array items => some items
  | _ => none

/-- The null literal is the only value whose type is `null`. -/
theorem isNull_iff (v : Value) : v.isNull = true ↔ v.typeName = "null" := by
  cases v <;> simp [isNull, typeName]

end Value

end PatternTraversal
