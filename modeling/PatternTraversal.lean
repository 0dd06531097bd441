import PatternTraversal.AlgebraError
import PatternTraversal.Alias
import PatternTraversal.Arrangement.Arrange
import PatternTraversal.Arrangement.Basic
import PatternTraversal.Arrangement.Components
import PatternTraversal.Arrangement.Context
import PatternTraversal.Arrangement.DisjointSet
import PatternTraversal.Arrangement.Fingerprint
import PatternTraversal.Arrangement.Frontier
import PatternTraversal.Arrangement.Score
import PatternTraversal.Arrangement.Search
import PatternTraversal.Arrangement.Units
import PatternTraversal.Condition
import PatternTraversal.Digest.LittleEndian
import PatternTraversal.Digest.Xxh64
import PatternTraversal.Explanation
import PatternTraversal.Expression.Basic
import PatternTraversal.Expression.Encoding
import PatternTraversal.Expression.Evaluation
import PatternTraversal.Matrix.Basic
import PatternTraversal.Matrix.Labels
import PatternTraversal.Matrix.Semiring
import PatternTraversal.Operand
import PatternTraversal.Options.Basic
import PatternTraversal.Options.Config
import PatternTraversal.Pattern
import PatternTraversal.Pattern.Building
import PatternTraversal.Plan.Basic
import PatternTraversal.Plan.Explain
import PatternTraversal.PlanError
import PatternTraversal.Procedure.Basic
import PatternTraversal.Procedure.ConnectedComponents
import PatternTraversal.Procedure.Error
import PatternTraversal.Procedure.Handle
import PatternTraversal.Procedure.Recorded
import PatternTraversal.Procedure.Registry
import PatternTraversal.Procedure.Scripted
import PatternTraversal.Procedure.Signature
import PatternTraversal.Proofs.Arrangement.Alike
import PatternTraversal.Proofs.Arrangement.Completions
import PatternTraversal.Proofs.Arrangement.Components
import PatternTraversal.Proofs.Arrangement.Counting
import PatternTraversal.Proofs.Arrangement.Declared
import PatternTraversal.Proofs.Arrangement.DisjointSet
import PatternTraversal.Proofs.Arrangement.Exploration
import PatternTraversal.Proofs.Arrangement.Fingerprint
import PatternTraversal.Proofs.Arrangement.Frontier
import PatternTraversal.Proofs.Arrangement.Greedy
import PatternTraversal.Proofs.Arrangement.Invariance
import PatternTraversal.Proofs.Arrangement.LoneAlias
import PatternTraversal.Proofs.Arrangement.Optimality
import PatternTraversal.Proofs.Arrangement.ParentList
import PatternTraversal.Proofs.Arrangement.Range
import PatternTraversal.Proofs.Arrangement.Ranking
import PatternTraversal.Proofs.Arrangement.Reuse
import PatternTraversal.Proofs.Arrangement.Roots
import PatternTraversal.Proofs.Arrangement.Segments
import PatternTraversal.Proofs.Arrangement.Settings
import PatternTraversal.Proofs.Arrangement.Splitting
import PatternTraversal.Proofs.Arrangement.Trail
import PatternTraversal.Proofs.Arrangement.UnitOrder
import PatternTraversal.Proofs.Arrangement.Units
import PatternTraversal.Proofs.Arrangement.Validity
import PatternTraversal.Proofs.Crossing
import PatternTraversal.Proofs.Expression.Construction
import PatternTraversal.Proofs.Expression.Encoding
import PatternTraversal.Proofs.Expression.Evaluation
import PatternTraversal.Proofs.Expression.Walks
import PatternTraversal.Proofs.Expression.WellFormed
import PatternTraversal.Proofs.MapChanges
import PatternTraversal.Proofs.Matrix.Algebra
import PatternTraversal.Proofs.Matrix.Entries
import PatternTraversal.Proofs.Matrix.Labels
import PatternTraversal.Proofs.Matrix.Product
import PatternTraversal.Proofs.Matrix.SemiringProduct
import PatternTraversal.Proofs.Matrix.Symmetrize
import PatternTraversal.Proofs.Pattern.Building
import PatternTraversal.Proofs.Pattern.Incidence
import PatternTraversal.Proofs.Plan.Chains
import PatternTraversal.Proofs.Plan.Meaning
import PatternTraversal.Proofs.Plan.Orientation
import PatternTraversal.Proofs.Procedure.ConnectedComponents
import PatternTraversal.Proofs.Procedure.Handle
import PatternTraversal.Proofs.Procedure.Lifecycle
import PatternTraversal.Proofs.Procedure.Session
import PatternTraversal.Proofs.Procedure.Simulation
import PatternTraversal.Proofs.StoredGraph.Evaluation
import PatternTraversal.Proofs.StoredGraph.History
import PatternTraversal.Proofs.StoredGraph.Reachable
import PatternTraversal.Proofs.StoredGraph.RefusedUpdate
import PatternTraversal.Proofs.StoredGraph.Satisfaction
import PatternTraversal.Row
import PatternTraversal.StoredGraph
import PatternTraversal.Text.Blank
import PatternTraversal.Toml.Document
import PatternTraversal.Toml.Item
import PatternTraversal.Toml.Key
import PatternTraversal.Toml.Moment
import PatternTraversal.Toml.Number
import PatternTraversal.Toml.Quoted
import PatternTraversal.Toml.Reader
import PatternTraversal.Toml.Space
import PatternTraversal.Toml.Value
import PatternTraversal.Value
