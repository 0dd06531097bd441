import PatternTraversal.Alias

/-!
# Patterns

The topology a query declares: node aliases with their labels, and relationship aliases between two
declared nodes. Both kinds share one namespace. The relationships attached to each node are kept
beside the two maps, so that degrees and neighbours are read off one node's entry.
-/

namespace PatternTraversal

/-- A relationship between two declared nodes; an empty list of types admits every type. -/
structure Relationship where
  source : Alias
  target : Alias
  types : List String
deriving DecidableEq, Repr

/-- Number of ends of a relationship at a node it is attached to: two for a self loop. -/
def Relationship.ends (edge : Relationship) : Nat := if edge.source = edge.target then 2 else 1

/-- Why a declaration is refused. -/
inductive PatternError where
  /-- The alias was declared before, as a node or as a relationship. -/
  | duplicateAlias (ident : Alias)
  /-- An endpoint of the relationship is not a declared node. -/
  | missingEndpoint (edge endpoint : Alias)
deriving DecidableEq, Repr

namespace PatternError

/-- Machine-readable name of the cause. -/
def code : PatternError → String
  | duplicateAlias _ => "DuplicateAlias"
  | missingEndpoint .. => "MissingEndpoint"

/-- Text for a reader. -/
def message : PatternError → String
  | duplicateAlias ident => "duplicate alias '" ++ ident.name ++ "'"
  | missingEndpoint edge endpoint =>
    "edge '" ++ edge.name ++ "' references undeclared node '" ++ endpoint.name ++ "'"

/-- Text for a reader, with the code in front. -/
def coded (error : PatternError) : String := "[" ++ error.code ++ "] " ++ error.message

end PatternError

/-- Declared nodes and relationships, with the relationships attached to each node. -/
structure Pattern where
  /-- Labels of each declared node. -/
  nodes : AliasMap (List String)
  /-- Declared relationships. -/
  edges : AliasMap Relationship
  /-- For each node the relationships attached to it, in declaration order; a self loop once. -/
  incident : AliasMap (List Alias)
deriving DecidableEq

/-- One entry of a pattern. -/
inductive Declaration where
  | node (ident : Alias) (labels : List String)
  | edge (ident : Alias) (relationship : Relationship)
deriving DecidableEq, Repr

namespace Pattern

/-- The pattern without declarations. -/
def empty : Pattern := ⟨∅, ∅, ∅⟩

/-- Whether an alias names a node or a relationship. -/
def contains (pattern : Pattern) (ident : Alias) : Bool :=
  pattern.nodes.contains ident || pattern.edges.contains ident

/-- Labels of a declared node. -/
def labels? (pattern : Pattern) (ident : Alias) : Option (List String) := pattern.nodes[ident]?

/-- A declared relationship. -/
def edge? (pattern : Pattern) (ident : Alias) : Option Relationship := pattern.edges[ident]?

/-- Declare a node. -/
def addNode (pattern : Pattern) (ident : Alias) (labels : List String) :
    Except PatternError Pattern :=
  if pattern.contains ident then .error (.duplicateAlias ident)
  else .ok
    { pattern with
      nodes := pattern.nodes.insert ident labels
      incident := pattern.incident.insert ident [] }

/-- Record that a relationship is attached to a node. -/
def attach (edge : Alias) (incident : AliasMap (List Alias)) (node : Alias) :
    AliasMap (List Alias) :=
  incident.alter node (·.map (· ++ [edge]))

/-- Declare a relationship between two declared nodes; the source is looked up first. -/
def addEdge (pattern : Pattern) (ident : Alias) (relationship : Relationship) :
    Except PatternError Pattern :=
  if pattern.contains ident then .error (.duplicateAlias ident)
  else if !pattern.nodes.contains relationship.source then
    .error (.missingEndpoint ident relationship.source)
  else if !pattern.nodes.contains relationship.target then
    .error (.missingEndpoint ident relationship.target)
  else
    let atSource := attach ident pattern.incident relationship.source
    .ok
      { pattern with
        edges := pattern.edges.insert ident relationship
        incident :=
          if relationship.source = relationship.target then atSource
          else attach ident atSource relationship.target }

/-- Add one declaration. -/
def declare (pattern : Pattern) : Declaration → Except PatternError Pattern
  | .node ident labels => pattern.addNode ident labels
  | .edge ident relationship => pattern.addEdge ident relationship

/-- The pattern with the given declarations, or the first refusal. -/
def ofDeclarations (declarations : List Declaration) : Except PatternError Pattern :=
  declarations.foldlM declare empty

/-- Relationships attached to a node, in declaration order. -/
def attached (pattern : Pattern) (ident : Alias) : List Relationship :=
  (pattern.incident.getD ident []).filterMap pattern.edge?

/-- Number of relationship ends at a node; a self loop has two. -/
def degree (pattern : Pattern) (ident : Alias) : Nat :=
  (pattern.attached ident).foldr (fun edge total => edge.ends + total) 0

/-- Nodes joined to a node by a relationship in either direction. -/
def neighbors (pattern : Pattern) (ident : Alias) : AliasSet :=
  Std.ExtTreeSet.ofList <| (pattern.attached ident).map fun edge =>
    if edge.source = ident then edge.target else edge.source

end Pattern

end PatternTraversal
