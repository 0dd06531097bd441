import PatternTraversal.Proofs.Procedure.ConnectedComponents

/-!
# Refused updates

An update that is refused registers the relationship type or the label it names, with a matrix that
stores nothing, and does nothing else. Registering a name goes unnoticed by every later update and
by every evaluation; of the procedure on connected components only an invocation with the registered
type can tell, as long as no accepted edge has the type.
-/

namespace PatternTraversal

namespace StoredGraph

/-! ## Answers -/

/-- The answer to an update; an accepted edge is answered with its number. -/
def answer (graph : StoredGraph) : Update → Except AlgebraError (Option UInt64)
  | .edge relation source target => (graph.addEdge relation source target).1.map some
  | .label name node => (graph.addLabel name node).1.map fun _ => none
  | .mask name nodes => (graph.addMask name nodes).1.map fun _ => none

namespace Update

/-- The relationship type that a change names. -/
def type? : Update → Option String
  | edge relation _ _ => some relation
  | _ => none

/-- The label that a change names. -/
def label? : Update → Option String
  | label name _ => some name
  | _ => none

end Update

/-! ## Registered names -/

/-- The map with a matrix under a name, the blank one if there was none. -/
def touch (known : Std.ExtTreeMap String SparseMatrix) (blank : SparseMatrix) :
    Option String → Std.ExtTreeMap String SparseMatrix
  | none => known
  | some name => known.insert name (known.getD name blank)

/-- The graph with the relationship type and the label of a change registered. -/
def register (graph : StoredGraph) (change : Update) : StoredGraph :=
  { graph with
    relations := touch graph.relations graph.blank change.type?
    labels := touch graph.labels graph.blank change.label? }

section Maps

variable (known : Std.ExtTreeMap String SparseMatrix) (blank : SparseMatrix)
  (touched : Option String)

/-- The registered name has a matrix, the other names what they had. -/
theorem getElem?_touch (name : String) :
    (touch known blank touched)[name]? =
      if touched = some name then some (known[name]?.getD blank) else known[name]? := by
  cases touched with
  | none => simp [touch]
  | some other =>
    simp only [touch, Std.ExtTreeMap.getElem?_insert, Std.LawfulEqCmp.compare_eq_iff_eq,
      Option.some.injEq]
    split
    · next h => rw [h, Std.ExtTreeMap.getD_eq_getD_getElem?]
    · rfl

/-- Registering a name changes no look-up that falls back on the blank matrix. -/
theorem getD_touch (name : String) :
    (touch known blank touched).getD name blank = known.getD name blank := by
  rw [Std.ExtTreeMap.getD_eq_getD_getElem?, Std.ExtTreeMap.getD_eq_getD_getElem?, getElem?_touch]
  split <;> simp

/-- A matrix can be stored before or after a name is registered. -/
theorem insert_touch (name : String) (m : SparseMatrix) :
    (touch known blank touched).insert name m = touch (known.insert name m) blank touched := by
  refine Std.ExtTreeMap.ext_getElem? fun other => ?_
  simp only [getElem?_touch, Std.ExtTreeMap.getElem?_insert, Std.LawfulEqCmp.compare_eq_iff_eq]
  split <;> simp [*]

end Maps

variable {graph : StoredGraph} {change : Update}

/-- A registered relationship type has a matrix. -/
theorem relation?_register (graph : StoredGraph) (change : Update) (name : String) :
    (graph.register change).relation? name =
      if change.type? = some name then some ((graph.relation? name).getD graph.blank)
      else graph.relation? name :=
  getElem?_touch graph.relations graph.blank change.type? name

/-- A registered label has a matrix. -/
theorem label?_register (graph : StoredGraph) (change : Update) (name : String) :
    (graph.register change).label? name =
      if change.label? = some name then some ((graph.label? name).getD graph.blank)
      else graph.label? name :=
  getElem?_touch graph.labels graph.blank change.label? name

/-- The blank matrix does not depend on registered names. -/
theorem blank_register (graph : StoredGraph) (change : Update) :
    (graph.register change).blank = graph.blank := rfl

/-- A refused update of a graph with square matrices registers the names of the change. -/
theorem update_of_refused (h : graph.IsSquare) {error : AlgebraError}
    (hrefused : graph.answer change = .error error) :
    graph.update change = graph.register change := by
  cases change with
  | edge relation source target =>
    have hknown := h.getD_relations relation
    -- Both matrices have the size of the graph, so they refuse the same nodes.
    have hset : (graph.relations.getD relation graph.blank).set graph.nextEdge source target =
        .error (.indexOutOfBounds source target graph.dim graph.dim) := by
      unfold SparseMatrix.set
      rw [hknown.rows_eq, hknown.cols_eq]
      refine if_neg fun hin => ?_
      simp [answer, addEdge, SparseMatrix.set, hknown.rows_eq, hknown.cols_eq, h.adjacency.rows_eq,
        h.adjacency.cols_eq, hin, Except.map] at hrefused
    simp only [update, addEdge, hset]
    rfl
  | label name node =>
    simp only [answer, update, addLabel] at hrefused ⊢
    cases hset : (graph.labels.getD name graph.blank).set 1 node node with
    | error error => rfl
    | ok matrix => simp [hset, Except.map] at hrefused
  | mask name nodes =>
    simp only [answer, update, addMask] at hrefused ⊢
    cases hmask : SparseMatrix.diagonal graph.dim nodes with
    | error error => rfl
    | ok matrix => simp [hmask, Except.map] at hrefused

/-- Adding an edge commutes with registering names. -/
theorem addEdge_register (graph : StoredGraph) (change : Update) (relation : String)
    (source target : UInt64) :
    (graph.register change).addEdge relation source target =
      ((graph.addEdge relation source target).1,
        (graph.addEdge relation source target).2.register change) := by
  simp only [addEdge, register, blank, getD_touch]
  cases (graph.relations.getD relation (.zero graph.dim graph.dim)).set graph.nextEdge source
    target with
  | error error => simp [insert_touch]
  | ok matrix => cases graph.adjacency.set 1 source target <;> simp [insert_touch]

/-- Tagging a node commutes with registering names. -/
theorem addLabel_register (graph : StoredGraph) (change : Update) (name : String) (node : UInt64) :
    (graph.register change).addLabel name node =
      ((graph.addLabel name node).1, (graph.addLabel name node).2.register change) := by
  simp only [addLabel, register, blank, getD_touch]
  cases (graph.labels.getD name (.zero graph.dim graph.dim)).set 1 node node <;>
    simp [insert_touch]

/-- Adding a mask commutes with registering names. -/
theorem addMask_register (graph : StoredGraph) (change : Update) (name : String)
    (nodes : List UInt64) :
    (graph.register change).addMask name nodes =
      ((graph.addMask name nodes).1, (graph.addMask name nodes).2.register change) := by
  simp only [addMask, register]
  cases SparseMatrix.diagonal graph.dim nodes <;> rfl

/-- Registered names change no answer to an update. -/
theorem answer_register (graph : StoredGraph) (change next : Update) :
    (graph.register change).answer next = graph.answer next := by
  cases next with
  | edge relation source target => simp only [answer, addEdge_register]
  | label name node => simp only [answer, addLabel_register]
  | mask name nodes => simp only [answer, addMask_register]

/-- An update leaves registered names registered. -/
theorem update_register (graph : StoredGraph) (change next : Update) :
    (graph.register change).update next = (graph.update next).register change := by
  cases next with
  | edge relation source target => simp only [update, addEdge_register]
  | label name node => simp only [update, addLabel_register]
  | mask name nodes => simp only [update, addMask_register]

/-- Names registered before updates might as well be registered behind them. -/
theorem foldl_update_register (graph : StoredGraph) (change : Update) (later : List Update) :
    later.foldl update (graph.register change) = (later.foldl update graph).register change := by
  induction later generalizing graph with
  | nil => rfl
  | cons next rest ih => rw [List.foldl_cons, List.foldl_cons, update_register, ih]

/-- A refused update among others leaves the names it registers, and nothing else. -/
theorem ofUpdates_of_refused {dim : UInt64} {updates : List Update} {error : AlgebraError}
    (hrefused : (ofUpdates dim updates).answer change = .error error) (later : List Update) :
    ofUpdates dim (updates ++ change :: later) =
      (ofUpdates dim (updates ++ later)).register change := by
  have hupdate := update_of_refused (isSquare_ofUpdates dim updates) hrefused
  rw [ofUpdates] at hupdate
  rw [ofUpdates, ofUpdates, List.foldl_append, List.foldl_append, List.foldl_cons, hupdate,
    foldl_update_register]

/-- Registered names change no matrix behind an operand. -/
theorem resolve_register (graph : StoredGraph) (change : Update) :
    (graph.register change).resolve = graph.resolve := by
  funext operand
  cases operand with
  | adjacency relation source target transposed =>
    cases relation with
    | none => rfl
    | some relation =>
      simp only [resolve, relation?_register, blank_register]
      split <;> simp
  | label name ident =>
    simp only [resolve, label?_register, blank_register]
    split <;> simp
  | mask name ident => rfl

/-- Registered names change no product. -/
theorem evaluate_register (graph : StoredGraph) (change : Update) (e : Expression) :
    (graph.register change).evaluate e = graph.evaluate e := by
  rw [evaluate, evaluate, resolve_register]

/-! ## The procedure on connected components -/

/-- An invocation finds the edges it found before names were registered, unless it asks for a type
that was registered without edges. -/
theorem source?_register {args : List Value}
    (h : ∀ type, change.type? = some type → args.head?.bind Value.asString? = some type →
      graph.relation? type ≠ none) :
    ConnectedComponents.source? (graph.register change).view args =
      ConnectedComponents.source? graph.view args := by
  unfold ConnectedComponents.source?
  cases hasked : args.head?.bind Value.asString? with
  | none => rfl
  | some type =>
    show (graph.register change).relation? type = graph.relation? type
    rw [relation?_register]
    split
    next htype =>
      obtain ⟨m, hm⟩ := Option.ne_none_iff_exists'.1 (h type htype hasked)
      rw [hm, Option.getD_some]
    next => rfl

/-- A type that was registered without edges is found, as one without edges. -/
theorem invoke_register {type : String} (htype : change.type? = some type)
    (hunknown : graph.relation? type = none) :
    ((ConnectedComponents.create (graph.register change).view).invoke [.string type]).1 =
      .ok .ready := by
  have hsource : ConnectedComponents.source? (graph.register change).view
      [ConnectedComponents.argument (some type)] = some graph.blank := by
    rw [ConnectedComponents.source?_argument]
    simp [ConnectedComponents.edges?, relation?_register, htype, hunknown]
  obtain ⟨sym, hsym, -⟩ := graph.isSquare_blank.1.exists_symmetrize
  have hinvoke := ConnectedComponents.invoke_argument (graph.register change) (some type)
  simp only [ConnectedComponents.procedure, hsource, hsym] at hinvoke
  exact congrArg Prod.fst hinvoke

/-! ## What a refused update leaves -/

/-- Everything that the names of a change, registered in the graph `plain`, show in `graph`. -/
structure DiffersByNames (change : Update) (plain graph : StoredGraph) : Prop where
  adjacency : graph.adjacency = plain.adjacency
  masks : graph.masks = plain.masks
  /-- The next accepted edge gets the same number. -/
  nextEdge : graph.nextEdge = plain.nextEdge
  /-- The type of the change is known, and stores nothing if it was not known before. -/
  relation? : ∀ name, graph.relation? name =
    if change.type? = some name then some ((plain.relation? name).getD plain.blank)
    else plain.relation? name
  /-- The label of the change is known, and stores nothing if it was not known before. -/
  label? : ∀ name, graph.label? name =
    if change.label? = some name then some ((plain.label? name).getD plain.blank)
    else plain.label? name
  answer : ∀ next, graph.answer next = plain.answer next
  evaluate : ∀ e, graph.evaluate e = plain.evaluate e
  /-- No request to the procedure can tell, unless it asks for a type that was not known before. -/
  replies : ∀ requests : List Request,
    (∀ args, .invoke args ∈ requests → ∀ type, change.type? = some type →
      args.head?.bind Value.asString? = some type → plain.relation? type ≠ none) →
    (ConnectedComponents.create graph.view).replies requests =
      (ConnectedComponents.create plain.view).replies requests
  /-- A type that was not known before is found instead of being reported. -/
  unknown : ∀ type, change.type? = some type → plain.relation? type = none →
    ((ConnectedComponents.create plain.view).invoke [.string type]).1 = .ok .resourceNotFound ∧
      ((ConnectedComponents.create graph.view).invoke [.string type]).1 = .ok .ready

/-- Registered names show in nothing else. -/
theorem differsByNames_register (graph : StoredGraph) (change : Update) :
    DiffersByNames change graph (graph.register change) where
  adjacency := rfl
  masks := rfl
  nextEdge := rfl
  relation? := relation?_register graph change
  label? := label?_register graph change
  answer := answer_register graph change
  evaluate := evaluate_register graph change
  replies requests h :=
    ConnectedComponents.replies_create_congr fun args hargs => source?_register (h args hargs)
  unknown type htype hunknown := by
    have hedges : ConnectedComponents.edges? graph (some type) = none := hunknown
    obtain ⟨invoked, hinvoke, -⟩ := ConnectedComponents.invoke_of_edges?_eq_none hedges
    exact ⟨congrArg Prod.fst hinvoke, invoke_register htype hunknown⟩

/-- A refused update leaves one trace: the relationship type or the label it names is known
afterwards. Whatever updates follow, the graph is the one without the refused update up to this
name. -/
theorem refused_update_registers {dim : UInt64} {updates : List Update} {change : Update}
    {error : AlgebraError} (hrefused : (ofUpdates dim updates).answer change = .error error)
    (later : List Update) :
    DiffersByNames change (ofUpdates dim (updates ++ later))
      (ofUpdates dim (updates ++ change :: later)) := by
  rw [ofUpdates_of_refused hrefused]
  exact differsByNames_register _ change

/-- An edge to a node outside the graph is refused between two accepted ones. -/
theorem refused_update_registers_type :
    let plain := ofUpdates 2 [.edge "R" 0 1, .edge "R" 1 0]
    let graph := ofUpdates 2 [.edge "R" 0 1, .edge "S" 0 5, .edge "R" 1 0]
    (ofUpdates 2 [.edge "R" 0 1]).answer (.edge "S" 0 5) = .error (.indexOutOfBounds 0 5 2 2) ∧
      graph.answer (.edge "S" 1 1) = .ok (some 2) ∧ (∀ e, graph.evaluate e = plain.evaluate e) ∧
      plain.relation? "S" = none ∧ graph.relation? "S" = some plain.blank ∧
      (ConnectedComponents.create graph.view).replies [.invoke [.string "R"], .step, .step] =
        (ConnectedComponents.create plain.view).replies [.invoke [.string "R"], .step, .step] := by
  intro plain graph
  have hrefused : (ofUpdates 2 [.edge "R" 0 1]).answer (.edge "S" 0 5) =
      .error (.indexOutOfBounds 0 5 2 2) := by decide +kernel
  have hdiffers : DiffersByNames (.edge "S" 0 5) plain graph :=
    refused_update_registers hrefused [.edge "R" 1 0]
  have hunknown : plain.relation? "S" = none := by decide +kernel
  refine ⟨hrefused, ?_, hdiffers.evaluate, hunknown, ?_, hdiffers.replies _ ?_⟩
  · rw [hdiffers.answer]
    decide +kernel
  · rw [hdiffers.relation?, hunknown]
    rfl
  · intro args hargs type htype hasked
    obtain rfl : args = [.string "R"] := by simpa using hargs
    cases htype
    exact absurd hasked (by decide)

/-- A graph without relationships refuses an edge to a node outside of it. Afterwards the type of
the edge is known, and the procedure has rows for it. -/
theorem relation?_of_refused_edge :
    let graph := ofUpdates 2 []
    let after := graph.update (.edge "R" 0 5)
    graph.answer (.edge "R" 0 5) = .error (.indexOutOfBounds 0 5 2 2) ∧
      graph.relation? "R" = none ∧ after.relation? "R" = some graph.blank ∧
      ((ConnectedComponents.create graph.view).invoke [.string "R"]).1 = .ok .resourceNotFound ∧
      ((ConnectedComponents.create after.view).invoke [.string "R"]).1 = .ok .ready := by
  intro graph after
  exact ⟨by decide +kernel, by decide +kernel, by decide +kernel, by rfl, by rfl⟩

end StoredGraph

end PatternTraversal
