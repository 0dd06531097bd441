import PatternTraversal.Procedure.Error
import PatternTraversal.Value

/-!
# Signatures

The declared arguments and columns of a procedure. Arguments fit when there are as many as declared
and each one has its declared type, null being accepted only where it is declared so.
-/

namespace PatternTraversal

/-- Whether a value has a type; null has none. -/
def ValueType.accepts : ValueType → Value → Bool
  | bool, .bool _ => true
  | int, .int _ => true
  | float, .float _ => true
  | string, .string _ => true
  | array, .array _ => true
  | _, _ => false

/-- A declared argument. -/
structure Parameter where
  name : String
  type : ValueType
  /-- Whether null is accepted. -/
  nullable : Bool
deriving DecidableEq, Repr

namespace Parameter

/-- Whether a value may be passed for an argument. -/
def accepts (parameter : Parameter) (value : Value) : Bool :=
  if value.isNull then parameter.nullable else parameter.type.accepts value

end Parameter

/-- A declared column. -/
structure Column where
  name : String
  type : ValueType
deriving DecidableEq, Repr

/-- Name, arguments and columns of a procedure. -/
structure Signature where
  name : String
  args : List Parameter
  outputs : List Column
  /-- Whether the graph is left unchanged. -/
  readOnly : Bool
deriving DecidableEq, Repr

namespace Signature

/-- Refuse the first value, counted from `position`, that does not fit its argument. -/
def checkTypes (signature : Signature) (position : Nat) :
    List Parameter → List Value → Except ProcedureError Unit
  | parameter :: parameters, value :: values =>
    if parameter.accepts value then signature.checkTypes (position + 1) parameters values
    else .error (.badArgumentType signature.name position parameter.type value.typeName)
  | _, _ => .ok ()

/-- Refuse values that do not fit the declared arguments. -/
def validate (signature : Signature) (values : List Value) : Except ProcedureError Unit :=
  if values.length = signature.args.length then signature.checkTypes 0 signature.args values
  else .error (.badArity signature.name signature.args.length values.length)

end Signature

end PatternTraversal
