import PatternTraversal.Pattern

/-!
# Building patterns

A pattern under construction takes one declaration after the other. A declaration checks its aliases
before it writes anything; nothing that was written before a refusal would be taken back. After a
refusal building goes on with the pattern as it stands.
-/

namespace PatternTraversal

namespace Pattern

/-- Steps on a pattern under construction. What a step wrote stays when a later one refuses. -/
abbrev Building := ExceptT PatternError (StateM Pattern)

namespace Building

/-- Refuse an alias that is in use. -/
def requireNew (ident : Alias) : Building Unit := do
  if (← get).contains ident then throw (.duplicateAlias ident)

/-- Refuse a relationship to an endpoint that is not declared. -/
def requireNode (edge endpoint : Alias) : Building Unit := do
  unless (← get).nodes.contains endpoint do throw (.missingEndpoint edge endpoint)

/-- Write that a relationship is attached to a node. -/
def attach (edge node : Alias) : Building Unit :=
  modify fun pattern => { pattern with incident := Pattern.attach edge pattern.incident node }

/-- Declare a node. -/
def node (ident : Alias) (labels : List String) : Building Unit := do
  requireNew ident
  modify fun pattern => { pattern with incident := pattern.incident.insert ident [] }
  modify fun pattern => { pattern with nodes := pattern.nodes.insert ident labels }

/-- Declare a relationship. Both endpoints are looked up before it is attached to either of them; a
self loop is attached once. -/
def edge (ident : Alias) (relationship : Relationship) : Building Unit := do
  requireNew ident
  requireNode ident relationship.source
  requireNode ident relationship.target
  attach ident relationship.source
  unless relationship.source = relationship.target do
    attach ident relationship.target
  modify fun pattern => { pattern with edges := pattern.edges.insert ident relationship }

/-- Take one declaration. -/
def declare : Declaration → Building Unit
  | .node ident labels => node ident labels
  | .edge ident relationship => edge ident relationship

end Building

/-- The answer to a declaration, and the pattern afterwards. -/
def submit (pattern : Pattern) (declaration : Declaration) : Except PatternError Unit × Pattern :=
  (Building.declare declaration).run.run pattern

/-- The pattern after a sequence of declarations, accepted or refused. -/
def built (declarations : List Declaration) : Pattern :=
  declarations.foldl (fun pattern declaration => (pattern.submit declaration).2) empty

end Pattern

end PatternTraversal
