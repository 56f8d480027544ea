import Stencil.Optimizer
import Stencil.Binary64.Reader
import Stencil.Binary64.Basic
import Stencil.Expr.Eval
import Stencil.Expr.Shape
import Stencil.Expr.Collection
import Stencil.Expr.Rewriting
import Stencil.Assignment.Extraction
import Stencil.Assignment.Sharing
import Stencil.Assignment.Invariance
import Stencil.Alias
import Stencil.Execution
import Stencil.Pipeline
import Stencil.Tuning.Session
import Stencil.Tuning.Simulation
import Stencil.Proofs.Tuning.Arguments
import Stencil.Proofs.Tuning.Candidates
import Stencil.Proofs.Tuning.Shapes
import Stencil.Proofs.Tuning.Positivity
import Stencil.Proofs.Tuning.Search
import Stencil.Proofs.Tuning.Trace
import Stencil.Proofs.Tuning.Windows
import Stencil.Proofs.Tuning.TimeSteps
import Stencil.Proofs.Tuning.Runtime
import Stencil.Proofs.Tuning.Preemptive
import Stencil.Proofs.Expr.Order
import Stencil.Proofs.Expr.Comparison
import Stencil.Proofs.Exact
import Stencil.Proofs.Lawful
import Stencil.Proofs.Expr.Canonical
import Stencil.Proofs.Expr.Operands
import Stencil.Proofs.Expr.Shape
import Stencil.Proofs.Expr.Denotation
import Stencil.Proofs.Expr.Evaluation
import Stencil.Proofs.Expr.Hereditary
import Stencil.Proofs.Expr.Abbreviation
import Stencil.Proofs.Table
import Stencil.Proofs.Expr.Collection
import Stencil.Proofs.Expr.Powers
import Stencil.Proofs.Assignment.Flow
import Stencil.Proofs.Assignment.Schedule
import Stencil.Proofs.Assignment.Placement
import Stencil.Proofs.Pass.Refines
import Stencil.Proofs.Pass.Increments
import Stencil.Proofs.Pass.Scheduled
import Stencil.Proofs.Assignment.Extraction
import Stencil.Proofs.Assignment.Inlining
import Stencil.Proofs.Assignment.Undoing
import Stencil.Proofs.Expr.Cost
import Stencil.Proofs.Expr.Load
import Stencil.Proofs.Expr.Insertion
import Stencil.Proofs.Expr.Renaming
import Stencil.Proofs.Expr.Saving
import Stencil.Proofs.Assignment.Reuse
import Stencil.Proofs.Assignment.Sharing
import Stencil.Proofs.Assignment.Choice
import Stencil.Proofs.Assignment.Consistency
import Stencil.Proofs.Assignment.Round
import Stencil.Proofs.Assignment.Rounds
import Stencil.Proofs.Assignment.Settling
import Stencil.Proofs.Assignment.Unsharing
import Stencil.Proofs.Assignment.Payoff
import Stencil.Proofs.Pass.Scalar
import Stencil.Proofs.Rational
import Stencil.Proofs.Execution.Point
import Stencil.Proofs.Execution.Effects
import Stencil.Proofs.Execution.Walk
import Stencil.Proofs.Execution.Tour
import Stencil.Proofs.Execution.Outcome
import Stencil.Proofs.Pass.Run
import Stencil.Proofs.Pass.Compaction
import Stencil.Proofs.Pass.Lifting
import Stencil.Proofs.Tuning.Exchange
import Stencil.Proofs.Tuning.Isolation
import Stencil.Proofs.Tuning.Failure
import Stencil.Proofs.Tuning.Selection
import Stencil.Proofs.Alias.Partition
import Stencil.Proofs.Execution.Agreement
import Stencil.Proofs.Execution.Precedence
import Stencil.Proofs.Execution.Standing
import Stencil.Proofs.Execution.Itinerary
import Stencil.Proofs.Execution.Sequence
import Stencil.Proofs.Execution.Traversal
import Stencil.Proofs.Execution.Directions
import Stencil.Proofs.Execution.Elimination
import Stencil.Proofs.Space.Box
import Stencil.Proofs.Space.Footprint
import Stencil.Proofs.Pass.Filling
import Stencil.Proofs.Pass.Visits
import Stencil.Proofs.Assignment.Naming
import Stencil.Proofs.Pass.Temporaries
import Stencil.Proofs.Pass.Splicing
import Stencil.Proofs.Pass.Frozen
import Stencil.Proofs.Pass.Inputs
import Stencil.Proofs.Pass.Footprints
import Stencil.Proofs.Pass.Removed
import Stencil.Proofs.Pass.Coverage
import Stencil.Proofs.Pass.Reach
import Stencil.Proofs.Tuning.Course
import Stencil.Proofs.Expr.Kind
import Stencil.Proofs.Binary64.Unpacked
import Stencil.Proofs.Binary64.Lawful
import Stencil.Proofs.Expr.Translation
import Stencil.Proofs.Expr.Regrouping
import Stencil.Proofs.Expr.NormalForm
import Stencil.Proofs.Pass.Factorization
import Stencil.Proofs.Pass.Finalization
import Stencil.Proofs.Expr.Substitution
import Stencil.Proofs.Expr.Trigonometry
import Stencil.Proofs.Assignment.Invariance
import Stencil.Proofs.Space.Positions
import Stencil.Proofs.Grid
import Stencil.Proofs.Binary64.Order
import Stencil.Proofs.Space.Composition
import Stencil.Proofs.Expr.TotalOrder
