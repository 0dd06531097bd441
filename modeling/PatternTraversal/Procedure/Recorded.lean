import PatternTraversal.Procedure.Basic

/-!
# Recorded procedures

A procedure with a record of the requests that reach it, and of its answers. It answers as the
procedure itself does.
-/

namespace PatternTraversal

/-- A request that reached a procedure, with its answer. -/
inductive Call where
  | invoke (args : List Value) (answer : Except ProcedureError Invocation)
  | step (answer : Except ProcedureError (Option Row))
  | free

/-- State of a procedure with the requests so far, oldest first. -/
structure Recorded (σ : Type) where
  inner : σ
  calls : List Call

namespace Recorded

/-- No request so far. -/
def start {σ : Type} (inner : σ) : Recorded σ := ⟨inner, []⟩

/-- Note a request that led to a state. -/
def note {σ : Type} (recorded : Recorded σ) (call : Call) (inner : σ) : Recorded σ :=
  ⟨inner, recorded.calls ++ [call]⟩

end Recorded

/-- The procedure that keeps a record. -/
def Procedure.recorded {σ : Type} (procedure : Procedure σ) : Procedure (Recorded σ) where
  signature state := procedure.signature state.inner
  invoke args state :=
    let (answer, inner) := procedure.invoke args state.inner
    (answer, state.note (.invoke args answer) inner)
  step state :=
    let (answer, inner) := procedure.step state.inner
    (answer, state.note (.step answer) inner)
  free state := state.note .free (procedure.free state.inner)

end PatternTraversal
