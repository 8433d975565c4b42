import Makefile.Main
import Makefile.Name
import Makefile.Span
import Makefile.Proofs.Evaluation.Branching
import Makefile.Proofs.Expansion.InFlight
import Makefile.Proofs.Evaluation.Termination
import Makefile.Proofs.Evaluation.Dependencies
import Makefile.Proofs.Evaluation.Recipes
import Makefile.Proofs.Engine.Inclusion
import Makefile.Proofs.Evaluation.Continuations
import Makefile.Proofs.Engine.Quoting
import Makefile.Proofs.Engine.Precedence
import Makefile.Proofs.Evaluation.Blame
import Makefile.Proofs.Session.Interleaving
import Makefile.Proofs.Evaluation.Atomicity
import Makefile.Proofs.Engine.PrintedRules
import Makefile.Proofs.Condition.Integers
import Makefile.Proofs.Line.Words
import Makefile.Proofs.Expansion.Computed
import Makefile.Proofs.Pattern
import Makefile.Proofs.Line.Normalized
import Makefile.Proofs.Diagnostic.Queue
import Makefile.Proofs.Session.Marks
import Makefile.Proofs.Function.Words
import Makefile.Proofs.Directive.Comparison
import Makefile.Proofs.Function.Indexing
import Makefile.Proofs.Arena.Addressing
import Makefile.Proofs.Function.FileNames
import Makefile.Proofs.Name
import Makefile.Proofs.Expansion.Arguments
