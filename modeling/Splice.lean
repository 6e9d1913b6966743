import Splice.Analysis
import Splice.Json.Tree
import Splice.Pass.BodyCopy
import Splice.Pass.Substitutable
import Splice.Pipeline
import Splice.Tree.Equality
import Splice.Proofs.Syntax.Lexeme
import Splice.Proofs.Analysis.Acceptance
import Splice.Proofs.Analysis.Contexts
import Splice.Proofs.Analysis.Unique
import Splice.Proofs.Disambiguate.Binding
import Splice.Proofs.Disambiguate.Blocks
import Splice.Proofs.Disambiguate.Main
import Splice.Proofs.Inline.Copy
import Splice.Proofs.Inline.Bodies
import Splice.Proofs.Inline.Valid
import Splice.Proofs.Pipeline.Invariant
import Splice.Proofs.Inline.Arguments
import Splice.Proofs.Inline.Behaviour
import Splice.Proofs.Json.Nodes
import Splice.Proofs.Json.RoundTrip
import Splice.Proofs.Pipeline.Preservation
import Splice.Proofs.Safety.Interpreter
import Splice.Proofs.Pipeline.Safety
import Splice.Proofs.Analysis.Occurrences
import Splice.Proofs.Disambiguate.Calls
import Splice.Proofs.Disambiguate.Numbers
import Splice.Proofs.Inline.Failures
import Splice.Proofs.Pipeline.Recursion
import Splice.Proofs.Analysis.Spans
import Splice.Proofs.Disambiguate.Legible
import Splice.Proofs.Inline.Legible
import Splice.Proofs.Pipeline.Reading
import Splice.Proofs.Inline.Tally
import Splice.Proofs.Pipeline.Replacement
import Splice.Proofs.Disambiguate.Settled
import Splice.Proofs.Pipeline.Idempotence
import Splice.Proofs.Pipeline.Reordering
import Splice.Proofs.Text.Places
import Splice.Proofs.Syntax.Partition
import Splice.Proofs.Tree.Bindings
import Splice.Proofs.Disambiguate.Ledger
import Splice.Proofs.Analysis.Foreign
import Splice.Proofs.Names.Stem
import Splice.Proofs.Names.Sequence
import Splice.Proofs.Disambiguate.Order
import Splice.Proofs.Pipeline.Minimality
import Splice.Proofs.Syntax.Progress
import Splice.Proofs.Syntax.Reports
import Splice.Proofs.Pipeline.Hoisting
import Splice.Proofs.Analysis.Counts
import Splice.Proofs.Analysis.Moved
import Splice.Proofs.Analysis.Literals
import Splice.Proofs.Syntax.Faults
import Splice.Proofs.Syntax.Extents
import Splice.Proofs.Diagnostic.Frame
import Splice.Proofs.Diagnostic.Agreement
import Splice.Proofs.Analysis.Declarations
import Splice.Proofs.Pass.Substitutable
import Splice.Proofs.Pipeline.Substitution
import Splice.Proofs.Tree.Visits
