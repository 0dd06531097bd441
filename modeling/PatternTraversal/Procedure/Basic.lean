import PatternTraversal.Procedure.Signature
import PatternTraversal.Row

/-!
# Procedures

A procedure is invoked with arguments and then yields rows one at a time. It is described by how it
answers each request in a state of its own; nothing is assumed about these answers.
-/

namespace PatternTraversal

/-- Answer to an accepted invocation. -/
inductive Invocation where
  /-- Rows can be asked for. -/
  | ready
  /-- Something the arguments name does not exist; there are no rows. -/
  | resourceNotFound
deriving DecidableEq, Repr

/-- A producer of rows with states in `σ`. -/
structure Procedure (σ : Type) where
  signature : σ → Signature
  /-- Prepare for rows. -/
  invoke : List Value → σ → Except ProcedureError Invocation × σ
  /-- The next row, or none at the end. -/
  step : σ → Except ProcedureError (Option Row) × σ
  /-- Let go of everything held. -/
  free : σ → σ

end PatternTraversal
