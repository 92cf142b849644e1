import CommandChain.Main
import CommandChain.Step.Samples
import CommandChain.Proofs.Run.Moves
import CommandChain.Proofs.Run.Trace
import CommandChain.Proofs.Run.Schedule
import CommandChain.Proofs.Run.Parts
import CommandChain.Proofs.Run.Signal
import CommandChain.Proofs.Run.Order
import CommandChain.Proofs.Chain.Watched
import CommandChain.Proofs.Run.Compose
import CommandChain.Proofs.Run.Confluence
import CommandChain.Proofs.Run.Wrapped
import CommandChain.Proofs.Step.Parameter
import CommandChain.Proofs.Expr.Mentioned
import CommandChain.Proofs.Expr.Depth
import CommandChain.Proofs.Step.Described
import CommandChain.Proofs.Run.ErrorMessage
import CommandChain.Proofs.Store.Lookup
import CommandChain.Proofs.Run.Untouched
import CommandChain.Proofs.Chain.Canonical
import CommandChain.Proofs.Chain.Spellings
import CommandChain.Proofs.Run.Inputs
import CommandChain.Proofs.Chain.Acceptance
import CommandChain.Proofs.Chain.TwoParts
import CommandChain.Proofs.Text.Joined
import CommandChain.Proofs.Expr.Room
import CommandChain.Proofs.Expr.Comparison
import CommandChain.Proofs.Expr.Escaped
import CommandChain.Proofs.Expr.Path
import CommandChain.Proofs.Expr.Positions
import CommandChain.Proofs.Step.Resolved
import CommandChain.Proofs.Store.Coerced
import CommandChain.Proofs.Step.Collected
