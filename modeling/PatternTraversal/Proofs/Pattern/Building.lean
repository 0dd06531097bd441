import PatternTraversal.Pattern.Building

/-!
# Declarations are taken whole or not at all

Every check of a declaration comes before its first write. The steps of a declaration, run one after
the other, therefore end in the pattern that declares it, or refuse it and leave the pattern as it
was.
-/

namespace PatternTraversal

namespace Pattern

/-! ## Steps of a declaration -/

namespace Building

variable {α β : Type}

/-- A step that refuses ends the sequence, with what was written so far. -/
theorem run_bind (first : Building α) (next : α → Building β) (pattern : Pattern) :
    (first >>= next).run.run pattern = match first.run.run pattern with
      | (.ok value, pattern) => (next value).run.run pattern
      | (.error error, pattern) => (.error error, pattern) := by
  simp only [bind, ExceptT.bind, ExceptT.mk, ExceptT.run, StateT.bind, StateT.run,
    ExceptT.bindCont]
  cases first pattern with
  | mk answer pattern => cases answer <;> rfl

/-- A change is made and answers nothing. -/
theorem run_modify (change : Pattern → Pattern) (pattern : Pattern) :
    (modify change : Building Unit).run.run pattern = (.ok (), change pattern) := rfl

/-- An alias in use is refused; the pattern stays either way. -/
theorem run_requireNew (ident : Alias) (pattern : Pattern) :
    (requireNew ident).run.run pattern =
      (if pattern.contains ident then .error (.duplicateAlias ident) else .ok (), pattern) := by
  rw [requireNew, run_bind]
  show StateT.run (ExceptT.run (if pattern.contains ident then _ else _)) pattern = _
  split <;> rfl

/-- An endpoint that is not declared is refused; the pattern stays either way. -/
theorem run_requireNode (edge endpoint : Alias) (pattern : Pattern) :
    (requireNode edge endpoint).run.run pattern =
      (if pattern.nodes.contains endpoint then .ok ()
        else .error (.missingEndpoint edge endpoint), pattern) := by
  rw [requireNode, run_bind]
  show StateT.run (ExceptT.run (if pattern.nodes.contains endpoint then _ else _)) pattern = _
  split <;> rfl

/-- Attaching a relationship to a node changes the incidence lists only. -/
theorem run_attach (edge node : Alias) (pattern : Pattern) :
    (attach edge node).run.run pattern =
      (.ok (), { pattern with incident := Pattern.attach edge pattern.incident node }) := rfl

end Building

/-- A declaration that is refused leaves the pattern; one that is accepted leads to the pattern that
declares it. -/
theorem submit_eq (pattern : Pattern) (declaration : Declaration) :
    pattern.submit declaration = match pattern.declare declaration with
      | .ok declared => (.ok (), declared)
      | .error error => (.error error, pattern) := by
  cases declaration with
  | node ident labels =>
    simp only [submit, Building.declare, Building.node, Building.run_bind, Building.run_requireNew,
      Building.run_modify, declare, addNode]
    by_cases hnew : pattern.contains ident
    · simp only [hnew, if_true]
    · simp only [hnew, Bool.false_eq_true, if_false]
  | edge ident edge =>
    simp only [submit, Building.declare, Building.edge, Building.run_bind, Building.run_requireNew,
      Building.run_requireNode, Building.run_attach, declare, addEdge]
    by_cases hnew : pattern.contains ident
    · simp only [hnew, if_true]
    by_cases hsource : pattern.nodes.contains edge.source
    · by_cases htarget : pattern.nodes.contains edge.target
      · by_cases hloop : edge.source = edge.target
        · simp only [hnew, htarget, hloop, Bool.false_eq_true, Bool.not_true, if_true, if_false,
            Building.run_modify]
        · simp only [hnew, hsource, htarget, hloop, Bool.false_eq_true, Bool.not_true, if_true,
            if_false, Building.run_bind, Building.run_attach, Building.run_modify]
      · simp only [hnew, hsource, htarget, Bool.false_eq_true, Bool.not_true, Bool.not_false,
          if_true, if_false]
    · simp only [hnew, hsource, Bool.false_eq_true, Bool.not_false, if_true, if_false]

/-! ## Conflicts -/

/-- An alias that names a node or a relationship already. -/
def Used (pattern : Pattern) (ident : Alias) : Prop := ident ∈ pattern.nodes ∨ ident ∈ pattern.edges

/-- What speaks against a declaration: its alias is in use, or an endpoint is not declared. -/
def Conflicts (pattern : Pattern) : Declaration → Prop
  | .node ident _ => pattern.Used ident
  | .edge ident edge =>
    pattern.Used ident ∨ edge.source ∉ pattern.nodes ∨ edge.target ∉ pattern.nodes

/-- A pattern contains exactly the aliases in use. -/
theorem contains_iff_used (pattern : Pattern) (ident : Alias) :
    pattern.contains ident = true ↔ pattern.Used ident := by
  simp [contains, Used]

/-- The incidence lists after a relationship was declared. -/
def attachBoth (incident : AliasMap (List Alias)) (ident : Alias) (edge : Relationship) :
    AliasMap (List Alias) :=
  if edge.source = edge.target then attach ident incident edge.source
  else attach ident (attach ident incident edge.source) edge.target

/-- The pattern with a declaration, whether or not something speaks against it. -/
def write (pattern : Pattern) : Declaration → Pattern
  | .node ident labels =>
    { pattern with
      nodes := pattern.nodes.insert ident labels
      incident := pattern.incident.insert ident [] }
  | .edge ident edge =>
    { pattern with
      edges := pattern.edges.insert ident edge
      incident := attachBoth pattern.incident ident edge }

/-- A declaration that nothing speaks against is written. -/
theorem declare_of_free {pattern : Pattern} {declaration : Declaration}
    (h : ¬ pattern.Conflicts declaration) :
    pattern.declare declaration = .ok (pattern.write declaration) := by
  cases declaration with
  | node ident labels =>
    have hnew : ¬ pattern.contains ident = true := by rwa [contains_iff_used]
    simp [declare, addNode, hnew, write]
  | edge ident edge =>
    simp only [Conflicts, ← contains_iff_used, ← Std.ExtTreeMap.contains_iff_mem, not_or,
      Decidable.not_not] at h
    obtain ⟨hnew, hsource, htarget⟩ := h
    simp only [declare, addEdge, hnew, hsource, htarget, write, attachBoth, Bool.not_true,
      Bool.false_eq_true, if_false]

/-- A declaration that something speaks against is refused. -/
theorem declare_of_conflicts {pattern : Pattern} {declaration : Declaration}
    (h : pattern.Conflicts declaration) : ∃ error, pattern.declare declaration = .error error := by
  cases declaration with
  | node ident labels =>
    have hused : pattern.contains ident = true := (pattern.contains_iff_used ident).mpr h
    exact ⟨.duplicateAlias ident, by simp [declare, addNode, hused]⟩
  | edge ident edge =>
    simp only [Conflicts, ← contains_iff_used, ← Std.ExtTreeMap.contains_iff_mem] at h
    simp only [declare, addEdge]
    split
    · exact ⟨.duplicateAlias ident, rfl⟩
    split
    · exact ⟨.missingEndpoint ident edge.source, rfl⟩
    split
    · exact ⟨.missingEndpoint ident edge.target, rfl⟩
    · simp_all

/-- A declaration is written unless something speaks against it. -/
theorem submit_cases (pattern : Pattern) (declaration : Declaration) :
    (¬ pattern.Conflicts declaration ∧
      pattern.submit declaration = (.ok (), pattern.write declaration)) ∨
    pattern.Conflicts declaration ∧
      ∃ error, pattern.submit declaration = (.error error, pattern) := by
  by_cases h : pattern.Conflicts declaration
  · obtain ⟨error, herror⟩ := declare_of_conflicts h
    exact .inr ⟨h, error, by rw [submit_eq, herror]⟩
  · exact .inl ⟨h, by rw [submit_eq, declare_of_free h]⟩

/-- A declaration is refused exactly if something speaks against it. -/
theorem exists_error_iff (pattern : Pattern) (declaration : Declaration) :
    (∃ error, (pattern.submit declaration).1 = .error error) ↔ pattern.Conflicts declaration := by
  obtain ⟨hfree, heq⟩ | ⟨hconflict, error, heq⟩ := pattern.submit_cases declaration
  · simp [heq, hfree]
  · simp [heq, hconflict]

/-- A refused declaration leaves the pattern. -/
theorem submit_of_error {pattern : Pattern} {declaration : Declaration} {error : PatternError}
    (h : (pattern.submit declaration).1 = .error error) :
    (pattern.submit declaration).2 = pattern := by
  obtain ⟨hfree, heq⟩ | ⟨hconflict, error, heq⟩ := pattern.submit_cases declaration
  · simp [heq] at h
  · simp [heq]

/-- What an accepted declaration adds: its own entry, and no other. -/
def Adds (pattern : Pattern) (declaration : Declaration) (after : Pattern) : Prop :=
  match declaration with
  | .node ident labels =>
    after.nodes = pattern.nodes.insert ident labels ∧ after.edges = pattern.edges
  | .edge ident edge =>
    after.nodes = pattern.nodes ∧ after.edges = pattern.edges.insert ident edge

/-- An accepted declaration adds its own entry, and no other. -/
theorem submit_of_ok {pattern : Pattern} {declaration : Declaration}
    (h : (pattern.submit declaration).1 = .ok ()) :
    pattern.Adds declaration (pattern.submit declaration).2 := by
  obtain ⟨hfree, heq⟩ | ⟨hconflict, error, heq⟩ := pattern.submit_cases declaration
  · rw [heq]
    cases declaration <;> exact ⟨rfl, rfl⟩
  · simp [heq] at h

end Pattern

end PatternTraversal
