import Nikl.Main
import Nikl.Proofs.Diagnostic.Underline
import Nikl.Proofs.Evaluation.Arithmetic
import Nikl.Proofs.Evaluation.Backtraces
import Nikl.Proofs.Evaluation.Collections
import Nikl.Proofs.Evaluation.Confinement
import Nikl.Proofs.Evaluation.Cycles
import Nikl.Proofs.Evaluation.DepthLimit
import Nikl.Proofs.Evaluation.DistinctKeys
import Nikl.Proofs.Evaluation.ItemAssignment
import Nikl.Proofs.Evaluation.Items
import Nikl.Proofs.Evaluation.LexicalScope
import Nikl.Proofs.Interner.Numbering
import Nikl.Proofs.Scope.Resolution
import Nikl.Proofs.Session.Conservation
import Nikl.Proofs.Session.ErrorPlaces
import Nikl.Proofs.Session.FaithfulSpans
import Nikl.Proofs.Session.Layout
import Nikl.Proofs.Session.Lines
import Nikl.Proofs.Session.NestedSpans
import Nikl.Proofs.Session.Unreadable
import Nikl.Proofs.Syntax.Progress
import Nikl.Proofs.Syntax.TokensKept
import Nikl.Proofs.Syntax.Unclosed
import Nikl.Proofs.Token.Malformed
import Nikl.Proofs.Token.Respacing
import Nikl.Proofs.Token.StringLiterals
import Nikl.Proofs.Value.Equivalence
import Nikl.Proofs.Value.Maps
import Nikl.Proofs.Value.Printing
import Nikl.Proofs.Value.ReadingBack
import Nikl.Syntax.Bracketed
