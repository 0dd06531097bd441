import Mathlib.Logic.Function.Iterate
import PatternTraversal.Procedure.Handle

/-!
# Ended handles

A handle whose rows have ended, or that was freed, answers every later request for a row with none
and does not change.
-/

namespace PatternTraversal

namespace Handle

variable {σ : Type} {handle : Handle σ}

/-- The first invocation with fitting arguments reaches the procedure. -/
theorem invoke_of_created {args : List Value} (hphase : handle.phase = .created)
    (hvalid : handle.signature.validate args = .ok ()) :
    handle.invoke args =
      ((handle.procedure.invoke args handle.inner).1,
        { handle with
          inner := (handle.procedure.invoke args handle.inner).2
          phase := phaseAfter (handle.procedure.invoke args handle.inner).1 }) := by
  simp [invoke, hphase, hvalid]

/-- Phase after the procedure has been asked for a row. -/
def phaseAfterRow : Except ProcedureError (Option Row) → Phase
  | .ok none => .exhausted
  | _ => .ready

/-- While rows may remain the procedure is asked for the next one. -/
theorem step_of_ready (hphase : handle.phase = .ready) :
    handle.step =
      ((handle.procedure.step handle.inner).1,
        { handle with
          inner := (handle.procedure.step handle.inner).2
          phase := phaseAfterRow (handle.procedure.step handle.inner).1 }) := by
  unfold step
  rw [hphase]
  dsimp only
  rcases handle.procedure.step handle.inner with ⟨error | _ | row, after⟩
  · simp [phaseAfterRow]
  · rfl
  · simp [phaseAfterRow]

/-- A row of the procedure is passed on while rows may remain. -/
theorem step_of_ready_some (hphase : handle.phase = .ready) {row : Row} {inner : σ}
    (hstep : handle.procedure.step handle.inner = (.ok (some row), inner)) :
    handle.step = (.ok (some row), { handle with inner }) := by
  simp [step, hphase, hstep]

/-- The end of the rows of the procedure exhausts the handle. -/
theorem step_of_ready_none (hphase : handle.phase = .ready) {inner : σ}
    (hstep : handle.procedure.step handle.inner = (.ok none, inner)) :
    handle.step = (.ok none, { handle with inner, phase := .exhausted }) := by
  simp [step, hphase, hstep]

/-- The handle after a number of requests for a row. -/
def steps (requests : ℕ) (handle : Handle σ) : Handle σ :=
  (fun handle => handle.step.2)^[requests] handle

/-- Whether every request for a row, now and later, is answered with none. -/
def Ended (handle : Handle σ) : Prop := ∀ requests, (handle.steps requests).step.1 = .ok none

/-- An exhausted or freed handle has no rows and stays as it is. -/
theorem step_of_over (h : handle.phase = .exhausted ∨ handle.phase = .freed) :
    handle.step = (.ok none, handle) := by
  rcases h with h | h <;> simp [step, h]

/-- A handle that a request for a row leaves as it is stays so. -/
theorem steps_of_step_eq {answer : Except ProcedureError (Option Row)}
    (h : handle.step = (answer, handle)) (requests : ℕ) : handle.steps requests = handle := by
  induction requests with
  | zero => rfl
  | succ requests ih => rw [steps, Function.iterate_succ_apply', ← steps, ih, h]

/-- An exhausted or freed handle has ended. -/
theorem ended_of_over (h : handle.phase = .exhausted ∨ handle.phase = .freed) : handle.Ended := by
  intro requests
  rw [steps_of_step_eq (step_of_over h), step_of_over h]

/-- A handle has ended when the next answer is none and the handle behind it has ended. -/
theorem ended_of_step (hanswer : handle.step.1 = .ok none) (hrest : handle.step.2.Ended) :
    handle.Ended := by
  intro requests
  cases requests with
  | zero => exact hanswer
  | succ requests => exact hrest requests

end Handle

end PatternTraversal
