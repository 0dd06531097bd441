import PatternTraversal.Procedure.Basic

/-!
# Scripted procedures

A procedure whose answers are fixed in advance: one for the invocation, and one for each request of
a row, with no rows after the last of them.
-/

namespace PatternTraversal

/-- Answers that remain to be given. -/
structure Script where
  signature : Signature
  invocation : Except ProcedureError Invocation
  answers : List (Except ProcedureError (Option Row))

/-- The procedure that gives the answers of a script. -/
def Procedure.scripted : Procedure Script where
  signature script := script.signature
  invoke _ script := (script.invocation, script)
  step script :=
    match script.answers with
    | [] => (.ok none, script)
    | answer :: answers => (answer, { script with answers })
  free script := script

end PatternTraversal
