import Splice.Query.Composition
import Splice.Query.Engine
import Splice.Tree.Recursion
import Splice.Proofs.Evaluation.Sessions
import Splice.Proofs.Evaluation.Stopping
import Splice.Proofs.Evaluation.Terminating
import Splice.Proofs.Expansion.Contexts
import Splice.Proofs.Expansion.Depth
import Splice.Proofs.Expansion.Meaning
import Splice.Proofs.Expansion.Names
import Splice.Proofs.Expansion.Nesting
import Splice.Proofs.Expansion.Occurrences
import Splice.Proofs.Expansion.Rebinding
import Splice.Proofs.Expansion.Scoping
import Splice.Proofs.Expansion.Stops
import Splice.Proofs.Expansion.Turns
import Splice.Proofs.Number.Rounding
import Splice.Proofs.Query.Consumption
import Splice.Proofs.Query.Grammar
import Splice.Proofs.Query.Requests
import Splice.Proofs.Query.Sharing
import Splice.Proofs.Query.Stepwise
import Splice.Proofs.Query.Strict
import Splice.Proofs.Query.Terminating
import Splice.Proofs.Tree.Rewriting
import Splice.Proofs.Scalar.Comparable
import Splice.Proofs.Operators.ComparisonSort
import Splice.Proofs.Operators.Rows
import Splice.Proofs.Operators.Totals
import Splice.Proofs.Scalar.Mirrored
import Splice.Proofs.Operators.OrderBy
import Splice.Proofs.Scalar.Exact
import Splice.Proofs.Tree.Lens
import Splice.Proofs.Operators.Extremes
import Splice.Proofs.Operators.Factoring
import Splice.Proofs.Identities
import Splice.Proofs.Evaluation.Records
import Splice.Proofs.Tree.Folding
