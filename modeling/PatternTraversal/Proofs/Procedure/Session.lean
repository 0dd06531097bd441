import PatternTraversal.Procedure.Recorded
import PatternTraversal.Proofs.Procedure.Handle

/-!
# Sessions

A session is everything that happens to a handle from its creation to its end: the requests of the
caller, the replies to them, and the requests that reach the procedure meanwhile. Watching a
procedure through its record changes no reply.
-/

namespace PatternTraversal

/-- A request to a handle. -/
inductive Request where
  | invoke (args : List Value)
  | step
  /-- The next item of the stream. -/
  | next
  | free

/-- What the caller receives. -/
inductive Reply where
  | invoked (answer : Except ProcedureError Invocation)
  | stepped (answer : Except ProcedureError (Option Row))
  | item (item? : Option (Except ProcedureError Row))
  | freed

/-- What a reply says about rows: a row, the end of the rows, or an error. -/
def Reply.rows? : Reply → Option (Except ProcedureError (Option Row))
  | stepped answer => some answer
  | item none => some (.ok none)
  | item (some (.ok row)) => some (.ok (some row))
  | item (some (.error error)) => some (.error error)
  | _ => none

namespace Call

/-- What the procedure answered to a request for a row. -/
def rows? : Call → Option (Except ProcedureError (Option Row))
  | step answer => some answer
  | _ => none

/-- Whether the request is an invocation. -/
def isInvoke : Call → Bool
  | invoke .. => true
  | _ => false

end Call

/-- One request with the phase and signature it meets, the reply to it, and the requests that reach
the procedure because of it. -/
structure Exchange where
  phase : Phase
  /-- Declared signature at the time of the request. -/
  signature : Signature
  request : Request
  reply : Reply
  calls : List Call

namespace Exchange

/-- What the caller is told about rows while rows may remain. -/
def received? (x : Exchange) : Option (Except ProcedureError (Option Row)) :=
  match x.phase with
  | .ready => x.reply.rows?
  | _ => none

end Exchange

/-- The exchanges with a handle, and all requests that reach the procedure until the handle is
dropped. -/
structure Session where
  exchanges : List Exchange
  calls : List Call

namespace Handle

variable {σ : Type}

/-- Serve one request. -/
def serve (handle : Handle σ) : Request → Reply × Handle σ
  | .invoke args => (.invoked (handle.invoke args).1, (handle.invoke args).2)
  | .step => (.stepped handle.step.1, handle.step.2)
  | .next => (.item handle.next.1, handle.next.2)
  | .free => (.freed, handle.free)

/-- Replies to a sequence of requests. -/
def replies (handle : Handle σ) : List Request → List Reply
  | [] => []
  | request :: rest => (handle.serve request).1 :: (handle.serve request).2.replies rest

/-- Serve one request and note what it led to. -/
def exchange (handle : Handle (Recorded σ)) (request : Request) : Exchange where
  phase := handle.phase
  signature := handle.signature
  request
  reply := (handle.serve request).1
  calls := (handle.serve request).2.inner.calls.drop handle.inner.calls.length

/-- Exchanges of a sequence of requests, and the handle behind them. -/
def converse (handle : Handle (Recorded σ)) :
    List Request → List Exchange × Handle (Recorded σ)
  | [] => ([], handle)
  | request :: rest =>
    let (exchanges, last) := (handle.serve request).2.converse rest
    (handle.exchange request :: exchanges, last)

/-- Dropping a handle frees it. -/
def drop (handle : Handle σ) : Handle σ := handle.free

end Handle

/-- The session of a sequence of requests to a fresh handle, which is dropped in the end. -/
def Procedure.session {σ : Type} (procedure : Procedure σ) (start : σ) (requests : List Request) :
    Session :=
  let (exchanges, last) := (Handle.create procedure.recorded (.start start)).converse requests
  ⟨exchanges, last.drop.inner.calls⟩

namespace Handle

variable {σ : Type}

/-- An item of the stream is the answer to a request for a row. -/
theorem next_eq (handle : Handle σ) :
    handle.next =
      (match handle.step.1 with
        | .ok none => none
        | .ok (some row) => some (.ok row)
        | .error error => some (.error error), handle.step.2) := by
  unfold next
  rcases handle.step with ⟨answer, after⟩
  rcases answer with error | _ | row <;> rfl

/-- A request for an item tells of the rows what a request for a row does. -/
theorem rows?_serve_next (handle : Handle σ) :
    (handle.serve .next).1.rows? = some handle.step.1 := by
  rw [serve, next_eq]
  rcases handle.step.1 with error | _ | row <;> rfl

/-- A request for an item leads where a request for a row does. -/
theorem serve_next_snd (handle : Handle σ) : (handle.serve .next).2 = handle.step.2 := by
  rw [serve, next_eq]

/-- The handle on the record of the procedure in the same state, with the requests so far. -/
def watched (handle : Handle σ) (calls : List Call) : Handle (Recorded σ) :=
  ⟨handle.procedure.recorded, ⟨handle.inner, calls⟩, handle.phase⟩

/-- Requests that reach the procedure because of one request to the handle. -/
def passed (handle : Handle σ) (request : Request) : List Call :=
  match handle.phase, request with
  | .created, .invoke args =>
    match handle.signature.validate args with
    | .error _ => []
    | .ok () => [.invoke args (handle.procedure.invoke args handle.inner).1]
  | .ready, .step | .ready, .next => [.step (handle.procedure.step handle.inner).1]
  | .freed, .free => []
  | _, .free => [.free]
  | _, _ => []

variable (handle : Handle σ) (calls : List Call)

/-- Watching keeps the signature. -/
theorem signature_watched : (handle.watched calls).signature = handle.signature := rfl

/-- A watched handle answers an invocation as the handle does. -/
theorem invoke_watched (args : List Value) :
    (handle.watched calls).invoke args =
      ((handle.invoke args).1,
        (handle.invoke args).2.watched (calls ++ handle.passed (.invoke args))) := by
  obtain ⟨procedure, inner, phase⟩ := handle
  cases phase
  case created =>
    unfold passed invoke
    simp only [signature_watched]
    cases (⟨procedure, inner, .created⟩ : Handle σ).signature.validate args with
    | error error => simp [watched]
    | ok => rfl
  all_goals simp [invoke, watched, passed, name, signature, Procedure.recorded]

/-- A watched handle answers a request for a row as the handle does. -/
theorem step_watched :
    (handle.watched calls).step =
      (handle.step.1, handle.step.2.watched (calls ++ handle.passed .step)) := by
  obtain ⟨procedure, inner, phase⟩ := handle
  cases phase
  case ready => rw [step_of_ready rfl, step_of_ready rfl]; rfl
  all_goals simp [step, watched, passed, name, signature, Procedure.recorded]

/-- A watched handle is freed as the handle is. -/
theorem free_watched :
    (handle.watched calls).free = handle.free.watched (calls ++ handle.passed .free) := by
  obtain ⟨procedure, inner, phase⟩ := handle
  cases phase <;> simp [free, watched, passed, Procedure.recorded, Recorded.note]

/-- An item of the stream is asked of the procedure as a row is. -/
theorem passed_next : handle.passed .next = handle.passed .step := by
  unfold passed
  cases handle.phase <;> rfl

/-- A watched handle serves a request as the handle does, and the record grows by what the request
passes to the procedure. -/
theorem serve_watched (request : Request) :
    (handle.watched calls).serve request =
      ((handle.serve request).1,
        (handle.serve request).2.watched (calls ++ handle.passed request)) := by
  cases request with
  | invoke args => simp [serve, invoke_watched]
  | step => simp [serve, step_watched]
  | next => simp [serve, next_eq, step_watched, passed_next]
  | free => simp [serve, free_watched]

/-- The exchange of a request to a handle. -/
def exchangeOf (request : Request) : Exchange :=
  ⟨handle.phase, handle.signature, request, (handle.serve request).1, handle.passed request⟩

/-- Exchanges of a sequence of requests to a handle. -/
def exchanges (handle : Handle σ) : List Request → List Exchange
  | [] => []
  | request :: rest => handle.exchangeOf request :: (handle.serve request).2.exchanges rest

/-- The handle behind a sequence of requests. -/
def after (handle : Handle σ) : List Request → Handle σ
  | [] => handle
  | request :: rest => (handle.serve request).2.after rest

/-- The exchange with a watched handle notes what the request passes to the procedure. -/
theorem exchange_watched (request : Request) :
    (handle.watched calls).exchange request = handle.exchangeOf request := by
  rw [exchange, signature_watched, serve_watched]
  simp [exchangeOf, watched]

/-- The exchanges with a watched handle are those with the handle, and its record grows by what they
pass to the procedure. -/
theorem converse_watched (requests : List Request) :
    (handle.watched calls).converse requests =
      (handle.exchanges requests,
        (handle.after requests).watched
          (calls ++ (handle.exchanges requests).flatMap Exchange.calls)) := by
  induction requests generalizing handle calls with
  | nil => simp [converse, exchanges, after]
  | cons request rest ih =>
    simp only [converse, exchange_watched, serve_watched, ih, exchanges, after, List.flatMap_cons,
      exchangeOf, List.append_assoc]

/-- The replies of the exchanges are those of the handle. -/
theorem map_reply_exchanges (requests : List Request) :
    (handle.exchanges requests).map Exchange.reply = handle.replies requests := by
  induction requests generalizing handle with
  | nil => rfl
  | cons request rest ih => simp [exchanges, replies, exchangeOf, ih]

end Handle

/-- The session of a procedure, told by the handle on the procedure itself. -/
theorem Procedure.session_eq {σ : Type} (procedure : Procedure σ) (start : σ)
    (requests : List Request) :
    procedure.session start requests =
      let handle := Handle.create procedure start
      ⟨handle.exchanges requests, (handle.exchanges requests).flatMap Exchange.calls ++
        (handle.after requests).passed .free⟩ := by
  have hcreate : Handle.create procedure.recorded (.start start) =
      (Handle.create procedure start).watched [] := rfl
  simp only [session, hcreate, Handle.converse_watched, Handle.drop, Handle.free_watched]
  rfl

end PatternTraversal
