import PatternTraversal.Proofs.Procedure.Session

/-!
# Procedures that answer alike

When two procedures answer alike from related states and keep their states related, so do the
handles on them, and a caller receives the same replies from both.
-/

namespace PatternTraversal

/-- Two procedures in related states answer alike, and their states stay related, as long as the
invocations have arguments of the given kind. -/
structure Procedure.Simulates {σ τ : Type} (p : Procedure σ) (q : Procedure τ)
    (rel : σ → τ → Prop) (kind : List Value → Prop) : Prop where
  signature : ∀ s t, rel s t → p.signature s = q.signature t
  invoke : ∀ s t args, rel s t → kind args →
    (p.invoke args s).1 = (q.invoke args t).1 ∧ rel (p.invoke args s).2 (q.invoke args t).2
  step : ∀ s t, rel s t → (p.step s).1 = (q.step t).1 ∧ rel (p.step s).2 (q.step t).2
  free : ∀ s t, rel s t → rel (p.free s) (q.free t)

namespace Handle

section Simulation

variable {σ τ : Type} {p : Procedure σ} {q : Procedure τ} {rel : σ → τ → Prop}
  {kind : List Value → Prop} {left : Handle σ} {right : Handle τ}

/-- Handles on two procedures in the same phase and in related states. -/
inductive Related (p : Procedure σ) (q : Procedure τ) (rel : σ → τ → Prop) :
    Handle σ → Handle τ → Prop where
  | mk {s : σ} {t : τ} (phase : Phase) (h : rel s t) : Related p q rel ⟨p, s, phase⟩ ⟨q, t, phase⟩

/-- Related handles answer an invocation alike and stay related. -/
theorem Related.invoke (hsim : p.Simulates q rel kind) (h : Related p q rel left right)
    {args : List Value} (hargs : kind args) :
    (left.invoke args).1 = (right.invoke args).1 ∧
      Related p q rel (left.invoke args).2 (right.invoke args).2 := by
  obtain @⟨s, t, phase, hrel⟩ := h
  have hsignature := hsim.signature s t hrel
  obtain ⟨hanswer, hinner⟩ := hsim.invoke s t args hrel hargs
  cases phase
  case created =>
    simp only [Handle.invoke, Handle.signature, hsignature]
    cases (q.signature t).validate args with
    | error error => exact ⟨rfl, .mk .failed hrel⟩
    | ok =>
      simp only [hanswer, true_and]
      exact .mk _ hinner
  all_goals
    simp only [Handle.invoke, Handle.name, Handle.signature, hsignature, true_and]
    exact .mk _ hrel

/-- Related handles answer a request for a row alike and stay related. -/
theorem Related.step (hsim : p.Simulates q rel kind) (h : Related p q rel left right) :
    left.step.1 = right.step.1 ∧ Related p q rel left.step.2 right.step.2 := by
  obtain @⟨s, t, phase, hrel⟩ := h
  have hsignature := hsim.signature s t hrel
  obtain ⟨hanswer, hinner⟩ := hsim.step s t hrel
  cases phase
  case ready =>
    simp only [step_of_ready, hanswer, true_and]
    exact .mk _ hinner
  all_goals
    simp only [Handle.step, Handle.name, Handle.signature, hsignature, true_and]
    exact .mk _ hrel

/-- Freeing keeps handles related. -/
theorem Related.free (hsim : p.Simulates q rel kind) (h : Related p q rel left right) :
    Related p q rel left.free right.free := by
  obtain @⟨s, t, phase, hrel⟩ := h
  cases phase
  case freed => exact .mk _ hrel
  all_goals exact .mk _ (hsim.free s t hrel)

/-- Related handles serve a request alike and stay related. -/
theorem Related.serve (hsim : p.Simulates q rel kind) (h : Related p q rel left right)
    {request : Request} (hargs : ∀ args, request = .invoke args → kind args) :
    (left.serve request).1 = (right.serve request).1 ∧
      Related p q rel (left.serve request).2 (right.serve request).2 := by
  cases request with
  | invoke args =>
    obtain ⟨hanswer, hrest⟩ := h.invoke hsim (hargs args rfl)
    exact ⟨congrArg Reply.invoked hanswer, hrest⟩
  | step =>
    obtain ⟨hanswer, hrest⟩ := h.step hsim
    exact ⟨congrArg Reply.stepped hanswer, hrest⟩
  | next =>
    obtain ⟨hanswer, hrest⟩ := h.step hsim
    simp only [Handle.serve, next_eq, hanswer, true_and]
    exact hrest
  | free => exact ⟨rfl, h.free hsim⟩

/-- Related handles reply alike to a sequence of requests. -/
theorem Related.replies (hsim : p.Simulates q rel kind) (h : Related p q rel left right)
    {requests : List Request} (hargs : ∀ args, .invoke args ∈ requests → kind args) :
    left.replies requests = right.replies requests := by
  induction requests generalizing left right with
  | nil => rfl
  | cons request rest ih =>
    obtain ⟨hreply, hrest⟩ :=
      h.serve hsim fun args heq => hargs args (heq ▸ List.mem_cons_self)
    rw [Handle.replies, Handle.replies, hreply,
      ih hrest fun args hmem => hargs args (List.mem_cons_of_mem _ hmem)]

end Simulation

end Handle

end PatternTraversal
