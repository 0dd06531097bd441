import PatternTraversal.Text.Blank

/-!
# Explanations

A tree of operators with their properties, printed for a reader: one line per operator, each level
indented by two more spaces, the properties behind the operator in braces.
-/

namespace PatternTraversal

/-- An operator with its properties and the operators that feed it. -/
inductive Explanation where
  | node (op : String) (props : List (String × String)) (inputs : List Explanation)
deriving Repr

namespace Explanation

/-- Text of one operator with its properties. -/
def header (op : String) (props : List (String × String)) : String :=
  if props.isEmpty then op
  else
    let items := props.map fun prop => prop.1 ++ ": " ++ prop.2
    op ++ " \x7b" ++ ", ".intercalate items ++ "\x7d"

/-- A line of a tree, indented by two spaces a level. -/
def line (depth : Nat) (text : String) : String :=
  String.ofList (List.replicate (2 * depth) ' ') ++ text ++ "\n"

mutual

/-- The lines of a tree whose root stands at a depth. -/
def lines (depth : Nat) : Explanation → List String
  | node op props inputs => line depth (header op props) :: linesOfAll (depth + 1) inputs

/-- The lines of several trees, one below the other. -/
def linesOfAll (depth : Nat) : List Explanation → List String
  | [] => []
  | tree :: rest => lines depth tree ++ linesOfAll depth rest

end

/-- Text of a tree, without trailing blank characters. -/
def render (tree : Explanation) : String :=
  String.ofList (trimEnd (String.join (tree.lines 0)).toList)

end Explanation

end PatternTraversal
