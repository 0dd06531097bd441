import PatternTraversal.Procedure.Basic

/-!
# Handles

A handle leads a procedure through its life: created, invoked once, asked for rows until they end,
freed once. A request at the wrong time is answered by the handle itself and never reaches the
procedure.
-/

namespace PatternTraversal

/-- Phase of a handle's life. -/
inductive Phase where
  /-- Not yet invoked. -/
  | created
  /-- The invocation was refused. -/
  | failed
  /-- Rows may remain. -/
  | ready
  /-- There are no more rows. -/
  | exhausted
  /-- Everything was let go. -/
  | freed
deriving DecidableEq, Repr

/-- A procedure under way. -/
structure Handle (σ : Type) where
  procedure : Procedure σ
  inner : σ
  phase : Phase

namespace Handle

variable {σ : Type}

/-- A procedure before its invocation. -/
def create (procedure : Procedure σ) (start : σ) : Handle σ := ⟨procedure, start, .created⟩

/-- Declared signature. -/
def signature (handle : Handle σ) : Signature := handle.procedure.signature handle.inner

/-- Name of the procedure. -/
def name (handle : Handle σ) : String := handle.signature.name

/-- Phase after an invocation with the given answer. -/
def phaseAfter : Except ProcedureError Invocation → Phase
  | .ok .ready => .ready
  | .ok .resourceNotFound => .exhausted
  | .error _ => .failed

/-- Invoke the procedure once, with arguments that fit its signature. -/
def invoke (args : List Value) (handle : Handle σ) :
    Except ProcedureError Invocation × Handle σ :=
  match handle.phase with
  | .created =>
    match handle.signature.validate args with
    | .error error => (.error error, { handle with phase := .failed })
    | .ok () =>
      let (answer, inner) := handle.procedure.invoke args handle.inner
      (answer, { handle with inner, phase := phaseAfter answer })
  | _ => (.error (.alreadyInvoked handle.name), handle)

/-- The next row; none for ever once the rows have ended or the handle is freed. -/
def step (handle : Handle σ) : Except ProcedureError (Option Row) × Handle σ :=
  match handle.phase with
  | .created | .failed => (.error (.notInvoked handle.name), handle)
  | .exhausted | .freed => (.ok none, handle)
  | .ready =>
    match handle.procedure.step handle.inner with
    | (.ok none, inner) => (.ok none, { handle with inner, phase := .exhausted })
    | (answer, inner) => (answer, { handle with inner })

/-- The next row as an item of a stream, which ends where the rows end. -/
def next (handle : Handle σ) : Option (Except ProcedureError Row) × Handle σ :=
  match handle.step with
  | (.ok none, handle) => (none, handle)
  | (.ok (some row), handle) => (some (.ok row), handle)
  | (.error error, handle) => (some (.error error), handle)

/-- At most the first `n` items of the stream. -/
def take : (n : Nat) → Handle σ → List (Except ProcedureError Row) × Handle σ
  | 0, handle => ([], handle)
  | n + 1, handle =>
    match handle.next with
    | (none, handle) => ([], handle)
    | (some item, handle) =>
      let (items, handle) := take n handle
      (item :: items, handle)

/-- Let go of everything held; a second time nothing happens. -/
def free (handle : Handle σ) : Handle σ :=
  match handle.phase with
  | .freed => handle
  | _ => { handle with inner := handle.procedure.free handle.inner, phase := .freed }

/-- Freeing leaves a handle freed. -/
@[simp] theorem phase_free (handle : Handle σ) : handle.free.phase = .freed := by
  unfold free
  split <;> simp [*]

/-- Freeing a second time changes nothing. -/
theorem free_free (handle : Handle σ) : handle.free.free = handle.free := by
  rw [free.eq_1 handle.free, phase_free]

end Handle

end PatternTraversal
