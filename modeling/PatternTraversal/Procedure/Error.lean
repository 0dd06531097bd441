import PatternTraversal.AlgebraError

/-!
# Errors of procedures

Arguments that do not fit a signature, requests at the wrong time, unknown names, and failures of
the matrix algebra while rows are computed.
-/

namespace PatternTraversal

/-- Declared type of an argument or a column. -/
inductive ValueType where
  | bool
  | int
  | float
  | string
  | array
deriving DecidableEq, Repr

/-- Word for a type in messages. -/
def ValueType.name : ValueType → String
  | bool => "bool"
  | int => "int"
  | float => "float"
  | string => "string"
  | array => "array"

/-- Why a request to a procedure is refused. -/
inductive ProcedureError where
  /-- The number of arguments is not the declared one. -/
  | badArity (procedure : String) (expected found : Nat)
  /-- An argument has not the declared type. -/
  | badArgumentType (procedure : String) (position : Nat) (expected : ValueType) (found : String)
  /-- A row was asked for before a successful invocation. -/
  | notInvoked (procedure : String)
  /-- The procedure was invoked before. -/
  | alreadyInvoked (procedure : String)
  /-- No procedure is registered under the name. -/
  | unknownProcedure (name : String)
  /-- The matrix algebra failed. -/
  | kernel (error : AlgebraError)
deriving DecidableEq, Repr

namespace ProcedureError

/-- Machine-readable name of the cause. -/
def code : ProcedureError → String
  | badArity .. => "BadArity"
  | badArgumentType .. => "BadArgumentType"
  | notInvoked _ => "NotInvoked"
  | alreadyInvoked _ => "AlreadyInvoked"
  | unknownProcedure _ => "UnknownProcedure"
  | kernel error => error.code

/-- Text for a reader. -/
def message : ProcedureError → String
  | badArity procedure expected found =>
    procedure ++ " expects " ++ Nat.repr expected ++ " argument(s), got " ++ Nat.repr found
  | badArgumentType procedure position expected found =>
    procedure ++ " argument " ++ Nat.repr position ++ " must be " ++ expected.name ++ ", got " ++
      found
  | notInvoked procedure => procedure ++ " stepped before a successful invoke"
  | alreadyInvoked procedure => procedure ++ " already invoked"
  | unknownProcedure name => "unknown procedure '" ++ name ++ "'"
  | kernel error => error.message

end ProcedureError

end PatternTraversal
