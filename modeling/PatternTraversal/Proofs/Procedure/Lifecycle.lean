import PatternTraversal.Procedure.Scripted
import PatternTraversal.Proofs.Procedure.Session

/-!
# Orderly sessions

Nothing is assumed about a procedure or its caller, yet what reaches the procedure is orderly: one
invocation with fitting arguments, requests for rows while rows may remain, one release at the end.
The caller receives exactly the rows and errors of the procedure, and the end of the rows is final.
-/

namespace PatternTraversal

/-- What a request can do in a phase: what reaches the procedure, what the caller is told of the
rows, and the phase afterwards. -/
inductive Moves (signature : Signature) :
    Phase → List Call → Option (Except ProcedureError (Option Row)) → Phase → Prop where
  /-- The arguments do not fit. -/
  | refused {args : List Value} {error : ProcedureError} :
    signature.validate args = .error error → Moves signature .created [] none .failed
  | invoked {args : List Value} {answer : Except ProcedureError Invocation} :
    signature.validate args = .ok () →
      Moves signature .created [.invoke args answer] none (Handle.phaseAfter answer)
  /-- A second invocation or release. -/
  | late {phase : Phase} : Moves signature phase [] none phase
  /-- A request for a row without a successful invocation. -/
  | early {phase : Phase} {error : ProcedureError} :
    phase = .created ∨ phase = .failed → Moves signature phase [] (some (.error error)) phase
  | row {answer : Except ProcedureError (Option Row)} :
    Moves signature .ready [.step answer] (some answer) (Handle.phaseAfterRow answer)
  /-- A request for a row when there are no more. -/
  | ended {phase : Phase} :
    phase = .exhausted ∨ phase = .freed → Moves signature phase [] (some (.ok none)) phase
  | freed {phase : Phase} : phase ≠ .freed → Moves signature phase [.free] none .freed

/-- Whether a request is for a row. -/
def Request.asksForRow : Request → Bool
  | step | next => true
  | _ => false

namespace Handle

variable {σ : Type} (handle : Handle σ)

/-- An invocation makes one of the moves. -/
theorem moves_invoke (args : List Value) :
    Moves handle.signature handle.phase (handle.passed (.invoke args)) none
      (handle.invoke args).2.phase := by
  cases hphase : handle.phase
  case created =>
    cases hvalid : handle.signature.validate args with
    | error error =>
      simp only [passed, invoke, hphase, hvalid]
      exact .refused hvalid
    | ok =>
      simp only [passed, invoke, hphase, hvalid]
      exact .invoked hvalid
  all_goals
    simp only [passed, invoke, hphase]
    exact .late

/-- A request for a row makes one of the moves. -/
theorem moves_step :
    Moves handle.signature handle.phase (handle.passed .step) (some handle.step.1)
      handle.step.2.phase := by
  cases hphase : handle.phase
  case ready =>
    rw [step_of_ready hphase]
    simp only [passed, hphase]
    exact .row
  all_goals simp only [passed, step, hphase]
  case created => exact .early (.inl rfl)
  case failed => exact .early (.inr rfl)
  case exhausted => exact .ended (.inl rfl)
  case freed => exact .ended (.inr rfl)

/-- A release reaches the procedure unless the handle is freed. -/
theorem passed_free : handle.passed .free = if handle.phase = .freed then [] else [.free] := by
  unfold passed
  cases handle.phase <;> rfl

/-- A release makes one of the moves. -/
theorem moves_free :
    Moves handle.signature handle.phase (handle.passed .free) none handle.free.phase := by
  rw [passed_free, phase_free]
  split
  case isTrue hphase =>
    rw [hphase]
    exact .late
  case isFalse hphase => exact .freed hphase

/-- Every request makes one of the moves. -/
theorem moves_serve (request : Request) :
    Moves handle.signature handle.phase (handle.passed request) (handle.serve request).1.rows?
      (handle.serve request).2.phase := by
  cases request with
  | invoke args => exact moves_invoke handle args
  | step => exact moves_step handle
  | next =>
    rw [passed_next, rows?_serve_next, serve_next_snd]
    exact moves_step handle
  | free => exact moves_free handle

/-- A request for a row is told something of the rows. -/
theorem exists_rows?_serve {request : Request} (h : request.asksForRow = true) :
    ∃ answer, (handle.serve request).1.rows? = some answer := by
  cases request with
  | invoke | free => cases h
  | step => exact ⟨_, rfl⟩
  | next => exact ⟨_, rows?_serve_next handle⟩

/-- Every exchange makes one of the moves. -/
theorem exists_moves_of_mem_exchanges {requests : List Request} {x : Exchange}
    (hx : x ∈ handle.exchanges requests) :
    ∃ next, Moves x.signature x.phase x.calls x.reply.rows? next := by
  induction requests generalizing handle with
  | nil => cases hx
  | cons request rest ih =>
    cases hx with
    | head => exact ⟨_, moves_serve handle request⟩
    | tail _ hx => exact ih _ hx

end Handle

namespace Moves

variable {signature : Signature} {phase next : Phase} {calls : List Call}
  {rows? : Option (Except ProcedureError (Option Row))}

/-- In the phase in which rows may remain the caller is told what the procedure answers; in the
other phases the procedure is not asked. -/
theorem filterMap_rows? (h : Moves signature phase calls rows? next) :
    calls.filterMap Call.rows? = if phase = .ready then rows?.toList else [] := by
  cases h with
  | refused | invoked => rfl
  | late => simp
  | early hphase => rcases hphase with rfl | rfl <;> rfl
  | row => rfl
  | ended hphase => rcases hphase with rfl | rfl <;> rfl
  | freed => simp [Call.rows?]

/-- The procedure is invoked only through a handle just created, with arguments that fit. -/
theorem of_invoke_mem {args : List Value} {answer : Except ProcedureError Invocation}
    (h : Moves signature phase calls rows? next) (hcall : .invoke args answer ∈ calls) :
    phase = .created ∧ signature.validate args = .ok () := by
  cases h with
  | invoked hvalid =>
    cases List.mem_singleton.mp hcall
    exact ⟨rfl, hvalid⟩
  | row | freed => cases List.mem_singleton.mp hcall
  | refused | late | early | ended => cases hcall

/-- After the end of the rows there are no more. -/
theorem over_of_none (h : Moves signature phase calls (some (.ok none)) next) :
    next = .exhausted ∨ next = .freed := by
  cases h with
  | row => exact .inl rfl
  | ended hphase => exact hphase

/-- Without rows there never are any again. -/
theorem of_over (h : Moves signature phase calls rows? next)
    (hphase : phase = .exhausted ∨ phase = .freed) :
    (next = .exhausted ∨ next = .freed) ∧ ∀ answer, rows? = some answer → answer = .ok none := by
  cases h with
  | refused | invoked | row => cases hphase <;> contradiction
  | late => exact ⟨hphase, fun _ h => nomatch h⟩
  | early hearly =>
    rcases hearly with rfl | rfl <;> cases hphase <;> contradiction
  | ended => exact ⟨hphase, fun answer h => (Option.some.inj h).symm⟩
  | freed => exact ⟨.inr rfl, fun _ h => nomatch h⟩

end Moves

/-! ## What has reached the procedure in a phase -/

/-- What a request for a row must find among the requests before it: a successful invocation, not
the end of the rows, and no release. -/
structure MayStep (before : List Call) : Prop where
  invoked : ∃ args, .invoke args (.ok .ready) ∈ before
  unended : .step (.ok none) ∉ before
  unfreed : .free ∉ before

/-- What the requests that have reached the procedure and the phase of the handle know of each
other. -/
structure Lived (phase : Phase) (calls : List Call) : Prop where
  fresh : phase = .created → calls = []
  invoke_once : calls.countP Call.isInvoke ≤ 1
  ready : phase = .ready → MayStep calls
  unfreed : phase ≠ .freed → .free ∉ calls
  mayStep : ∀ before answer after, calls = before ++ .step answer :: after → MayStep before
  freed : phase = .freed → ∃ before, calls = before ++ [.free] ∧ .free ∉ before

/-- An element of a list that is longer by one is the new one or has its place in the list. -/
theorem append_singleton_eq_split {α : Type} {list before after : List α} {last a : α}
    (h : list ++ [last] = before ++ a :: after) :
    (list = before ∧ last = a) ∨ ∃ rest, list = before ++ a :: rest := by
  rcases List.eq_nil_or_concat after with rfl | ⟨rest, b, rfl⟩
  · obtain ⟨hlist, hlast⟩ := List.append_inj' h rfl
    exact .inl ⟨hlist, List.singleton_inj.mp hlast⟩
  · right
    have hsplit : list ++ [last] = (before ++ a :: rest) ++ [b] := by simpa using h
    exact ⟨rest, (List.append_inj' hsplit rfl).1⟩

namespace Lived

variable {signature : Signature} {phase next : Phase} {calls passed : List Call}
  {rows? : Option (Except ProcedureError (Option Row))}

/-- Nothing has reached the procedure of a fresh handle. -/
theorem created : Lived .created [] where
  fresh _ := rfl
  invoke_once := Nat.zero_le 1
  ready h := nomatch h
  unfreed _ := List.not_mem_nil
  mayStep before _ _ h := by simp at h
  freed h := nomatch h

/-- Every request for a row so far, and a new one where it may be made, found what it must. -/
theorem mayStep_append (h : Lived phase calls) {call : Call}
    (hcall : ∀ answer, call = .step answer → MayStep calls) :
    ∀ before answer after, calls ++ [call] = before ++ .step answer :: after → MayStep before := by
  intro before answer after hsplit
  rcases append_singleton_eq_split hsplit with ⟨rfl, hlast⟩ | ⟨rest, hrest⟩
  · exact hcall answer hlast
  · exact h.mayStep before answer rest hrest

/-- The invocation of the procedure. -/
theorem invoked (h : Lived .created calls) (args : List Value)
    (answer : Except ProcedureError Invocation) :
    Lived (Handle.phaseAfter answer) (calls ++ [.invoke args answer]) := by
  have hstep := h.mayStep_append fun _ (hcall : Call.invoke args answer = _) => nomatch hcall
  have hphase : Handle.phaseAfter answer ≠ .created ∧ Handle.phaseAfter answer ≠ .freed ∧
      (Handle.phaseAfter answer = .ready → answer = .ok .ready) := by
    rcases answer with error | _ | _ <;> simp [Handle.phaseAfter]
  cases h.fresh rfl
  constructor
  case fresh => exact fun hcreated => absurd hcreated hphase.1
  case invoke_once => simp [Call.isInvoke]
  case ready =>
    intro hready
    cases hphase.2.2 hready
    exact ⟨⟨args, by simp⟩, by simp, by simp⟩
  case unfreed => simp
  case mayStep => exact hstep
  case freed => exact fun hfreed => absurd hfreed hphase.2.1

/-- A request for a row of the procedure. -/
theorem stepped (h : Lived .ready calls) (answer : Except ProcedureError (Option Row)) :
    Lived (Handle.phaseAfterRow answer) (calls ++ [.step answer]) := by
  obtain ⟨⟨args, hinvoked⟩, hunended, hunfreed⟩ := h.ready rfl
  have hphase : Handle.phaseAfterRow answer ≠ .created ∧ Handle.phaseAfterRow answer ≠ .freed ∧
      (Handle.phaseAfterRow answer = .ready → answer ≠ .ok none) := by
    rcases answer with error | _ | row <;> simp [Handle.phaseAfterRow]
  constructor
  case fresh => exact fun hcreated => absurd hcreated hphase.1
  case invoke_once => simpa [Call.isInvoke] using h.invoke_once
  case ready =>
    intro hready
    have hmore := hphase.2.2 hready
    exact ⟨⟨args, by simp [hinvoked]⟩, by simp [hunended, hmore.symm], by simp [hunfreed]⟩
  case unfreed => simp [hunfreed]
  case mayStep => exact h.mayStep_append fun _ _ => h.ready rfl
  case freed => exact fun hfreed => absurd hfreed hphase.2.1

/-- The release of the procedure. -/
theorem released (h : Lived phase calls) (hphase : phase ≠ .freed) :
    Lived .freed (calls ++ [.free]) where
  fresh h := nomatch h
  invoke_once := by simpa [Call.isInvoke] using h.invoke_once
  ready h := nomatch h
  unfreed h := absurd rfl h
  mayStep := h.mayStep_append (fun _ hcall => nomatch hcall)
  freed _ := ⟨calls, rfl, h.unfreed hphase⟩

/-- A refused invocation reaches nothing. -/
theorem refused (h : Lived .created calls) : Lived .failed calls := by
  cases h.fresh rfl
  constructor
  case mayStep => exact created.mayStep
  all_goals simp

/-- What is known of a phase stays known through every move. -/
theorem moves (h : Lived phase calls) (hmoves : Moves signature phase passed rows? next) :
    Lived next (calls ++ passed) := by
  cases hmoves with
  | refused => simpa using h.refused
  | invoked => exact h.invoked _ _
  | late | early | ended => simpa using h
  | row => exact h.stepped _
  | freed hphase => exact h.released hphase

/-- What is known of a phase stays known through a sequence of requests. -/
theorem exchanges {σ : Type} {handle : Handle σ} (h : Lived handle.phase calls)
    (requests : List Request) :
    Lived (handle.after requests).phase
      (calls ++ (handle.exchanges requests).flatMap Exchange.calls) := by
  induction requests generalizing handle calls with
  | nil => simpa [Handle.exchanges, Handle.after] using h
  | cons request rest ih =>
    have hnext := ih (h.moves (handle.moves_serve request))
    simpa [Handle.exchanges, Handle.exchangeOf, Handle.after] using hnext

end Lived

namespace Handle

variable {σ : Type} {handle : Handle σ}

/-- Rows and errors reach the caller while rows may remain, in the order in which the procedure
returns them. -/
theorem filterMap_received? (requests : List Request) :
    (handle.exchanges requests).filterMap Exchange.received? =
      ((handle.exchanges requests).flatMap Exchange.calls).filterMap Call.rows? := by
  induction requests generalizing handle with
  | nil => rfl
  | cons request rest ih =>
    have hhead : (handle.exchangeOf request).received?.toList =
        (handle.passed request).filterMap Call.rows? := by
      rw [(moves_serve handle request).filterMap_rows?]
      unfold Exchange.received? exchangeOf
      cases handle.phase <;> rfl
    rw [exchanges, List.flatMap_cons, List.filterMap_append, ← ih]
    change _ = (handle.passed request).filterMap Call.rows? ++ _
    rw [← hhead]
    cases h : (handle.exchangeOf request).received? <;> simp [h]

/-- Without rows every later request for a row is told so. -/
theorem rows?_of_over (hphase : handle.phase = .exhausted ∨ handle.phase = .freed)
    {requests : List Request} {x : Exchange} (hx : x ∈ handle.exchanges requests)
    (hasks : x.request.asksForRow = true) : x.reply.rows? = some (.ok none) := by
  induction requests generalizing handle with
  | nil => cases hx
  | cons request rest ih =>
    obtain ⟨hnext, hnone⟩ := (moves_serve handle request).of_over hphase
    cases hx with
    | head =>
      obtain ⟨answer, hanswer⟩ := exists_rows?_serve handle hasks
      cases hnone answer hanswer
      exact hanswer
    | tail _ hx => exact ih hnext hx

/-- After the end of the rows every request for a row is told of it. -/
theorem pairwise_exchanges (requests : List Request) :
    (handle.exchanges requests).Pairwise fun earlier later =>
      earlier.reply.rows? = some (.ok none) → later.request.asksForRow = true →
        later.reply.rows? = some (.ok none) := by
  induction requests generalizing handle with
  | nil => exact .nil
  | cons request rest ih =>
    apply List.Pairwise.cons
    · intro later hlater hnone hasks
      have hmoves := moves_serve handle request
      rw [show (handle.serve request).1.rows? = some (.ok none) from hnone] at hmoves
      exact rows?_of_over hmoves.over_of_none hlater hasks
    · exact ih

/-- The exchanges are those of the requests. -/
theorem map_request_exchanges (requests : List Request) :
    (handle.exchanges requests).map Exchange.request = requests := by
  induction requests generalizing handle with
  | nil => rfl
  | cons request rest ih => simp [exchanges, exchangeOf, ih]

end Handle

/-! ## Sessions -/

/-- What is asked of a session, whatever the procedure answers and the caller requests. -/
structure Session.IsOrderly (session : Session) : Prop where
  /-- What reaches the procedure comes from the exchanges, and from dropping the handle. -/
  calls_eq : session.calls = session.exchanges.flatMap Exchange.calls ∨
    session.calls = session.exchanges.flatMap Exchange.calls ++ [.free]
  invoke_once : session.calls.countP Call.isInvoke ≤ 1
  invoke_created : ∀ x ∈ session.exchanges, ∀ args answer, .invoke args answer ∈ x.calls →
    x.phase = .created ∧ x.signature.validate args = .ok ()
  mayStep : ∀ before answer after,
    session.calls = before ++ .step answer :: after → MayStep before
  /-- The procedure is freed once, and nothing reaches it afterwards. -/
  free_last : ∃ before, session.calls = before ++ [.free] ∧ .free ∉ before
  /-- The caller is told the answers of the procedure about rows, in their order. -/
  received : session.exchanges.filterMap Exchange.received? =
    session.calls.filterMap Call.rows?
  /-- The end of the rows is final. -/
  ended : session.exchanges.Pairwise fun earlier later =>
    earlier.reply.rows? = some (.ok none) → later.request.asksForRow = true →
      later.reply.rows? = some (.ok none)

/-- Every session is orderly, whatever the procedure answers and the caller requests, and the caller
receives what a handle on the unwatched procedure replies. -/
theorem Procedure.session_isOrderly {σ : Type} (procedure : Procedure σ) (start : σ)
    (requests : List Request) :
    (procedure.session start requests).IsOrderly ∧
      (procedure.session start requests).exchanges.map Exchange.request = requests ∧
      (procedure.session start requests).exchanges.map Exchange.reply =
        (Handle.create procedure start).replies requests := by
  rw [session_eq]
  have hlived : Lived ((Handle.create procedure start).after requests).phase
      ([] ++ ((Handle.create procedure start).exchanges requests).flatMap Exchange.calls) :=
    Lived.exchanges .created requests
  -- dropping is one more release
  have hmoves := Handle.moves_free ((Handle.create procedure start).after requests)
  have hclosed := hlived.moves hmoves
  rw [Handle.phase_free, List.nil_append] at hclosed
  refine ⟨?_, Handle.map_request_exchanges requests, Handle.map_reply_exchanges _ requests⟩
  constructor
  case calls_eq =>
    simp only [Handle.passed_free]
    split <;> simp
  case invoke_once => exact hclosed.invoke_once
  case invoke_created =>
    intro x hx args answer hcall
    obtain ⟨next, hnext⟩ := Handle.exists_moves_of_mem_exchanges _ hx
    exact hnext.of_invoke_mem hcall
  case mayStep => exact hclosed.mayStep
  case free_last => exact hclosed.freed rfl
  case received =>
    rw [List.filterMap_append, hmoves.filterMap_rows?, Handle.filterMap_received?]
    simp
  case ended => exact Handle.pairwise_exchanges requests

-- The row asked for too early and the one asked for after the end never reach the procedure.
example :
    let script : Script := ⟨⟨"none", [], [], true⟩, .ok .ready, []⟩
    let session := Procedure.session .scripted script [.step, .invoke [], .next, .step]
    session.calls = [.invoke [] (.ok .ready), .step (.ok none), .free] ∧
      session.exchanges.map Exchange.reply =
        [.stepped (.error (.notInvoked "none")), .invoked (.ok .ready), .item none,
          .stepped (.ok none)] :=
  ⟨rfl, rfl⟩

end PatternTraversal
