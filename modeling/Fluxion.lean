import Fluxion.Main
import Fluxion.Proofs.Emitted.Existing
import Fluxion.Proofs.Analysis.Effects
import Fluxion.Proofs.Grammar.Combinators
import Fluxion.Proofs.Grammar.Words
import Fluxion.Proofs.Decimal.Digits
import Fluxion.Proofs.Grammar.Literals
import Fluxion.Proofs.Grammar.Types
import Fluxion.Proofs.Grammar.Operators
import Fluxion.Proofs.Grammar.Expressions
import Fluxion.Proofs.Grammar.Statements
import Fluxion.Proofs.Grammar.Blocks
import Fluxion.Proofs.Grammar.Programs
import Fluxion.Proofs.Grammar.Comments
import Fluxion.Proofs.Grammar.Results
import Fluxion.Proofs.Grammar.Definite
import Fluxion.Proofs.Grammar.Parsed
import Fluxion.Proofs.Decimal.Bits
import Fluxion.Proofs.Decimal.Rounding
import Fluxion.Proofs.Decimal.Shortest
import Fluxion.Proofs.Decimal.Layouts
import Fluxion.Proofs.Grammar.RoundTrip
import Fluxion.Proofs.Runs.Reached
import Fluxion.Proofs.Typing.Agreement
import Fluxion.Proofs.Typing.Soundness
import Fluxion.Proofs.Paired.Calls
import Fluxion.Proofs.Canonical.Meaning
import Fluxion.Proofs.Library.Refused
import Fluxion.Proofs.Analysis.Paths
import Fluxion.Proofs.Determined.Derivation
import Fluxion.Proofs.Emitted.Estimates
import Fluxion.Proofs.Apart.Generated
import Fluxion.Proofs.Runs.Restored
import Fluxion.Proofs.Accumulated.Outputs
import Fluxion.Proofs.Canonical.Tails
import Fluxion.Proofs.Request.Meaningful
import Fluxion.Proofs.Request.Counts
import Fluxion.Proofs.Command.Matrices
import Fluxion.Proofs.Session.Diagnosed
import Fluxion.Proofs.Numbers.FivePoint
import Fluxion.Proofs.Request.Listed
import Fluxion.Proofs.Typing.Inferred
import Fluxion.Proofs.Text.Blanked
