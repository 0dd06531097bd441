import PatternTraversal.Procedure.ConnectedComponents

/-!
# Registries

Procedures under names. A look-up gives a fresh handle on the given graph.
-/

namespace PatternTraversal

/-- Named ways to put a procedure on a graph. -/
structure Registry (σ : Type) where
  factories : Std.ExtTreeMap String (GraphView → Handle σ)

namespace Registry

variable {σ : Type}

/-- No names. -/
def empty : Registry σ := ⟨∅⟩

/-- Register a procedure, in place of a previous one of the name. -/
def register (registry : Registry σ) (name : String) (factory : GraphView → Handle σ) :
    Registry σ :=
  ⟨registry.factories.insert name factory⟩

/-- The built-in procedures. -/
def builtins : Registry ConnectedComponents :=
  empty.register ConnectedComponents.procedureName ConnectedComponents.create

/-- Registered names, in order. -/
def names (registry : Registry σ) : List String := registry.factories.keys

/-- A fresh handle on a graph. -/
def get (registry : Registry σ) (name : String) (graph : GraphView) :
    Except ProcedureError (Handle σ) :=
  match registry.factories[name]? with
  | some factory => .ok (factory graph)
  | none => .error (.unknownProcedure name)

end Registry

end PatternTraversal
