import Scripting.Main
import Scripting.Token.Reader
import Scripting.Proofs.Lowering.Checked
import Scripting.Proofs.Submission.Session
import Scripting.Proofs.Surface.Reading
import Scripting.Proofs.Surface.Roundtrip
import Scripting.Proofs.Check.Context
import Scripting.Proofs.Graph.Correspondence
import Scripting.Proofs.Check.Lockstep
import Scripting.Proofs.Symbol.Renumbering
import Scripting.Proofs.Check.Renumbering
import Scripting.Proofs.Submission.Renumbering
import Scripting.Proofs.Submission.Labels
import Scripting.Proofs.Run.Correspondence
import Scripting.Proofs.Submission.Rejection
import Scripting.Proofs.Run.Concatenation
import Scripting.Proofs.Run.Frames
import Scripting.Proofs.Check.Merging
import Scripting.Proofs.Run.Outcome
import Scripting.Proofs.Submission.Rebuilding
import Scripting.Proofs.Submission.Splitting
import Scripting.Proofs.Submission.Permissive
import Scripting.Proofs.Token.Rendering
import Scripting.Proofs.Surface.Spelling
import Scripting.Proofs.Surface.Tokens
import Scripting.Proofs.Typed.Mentions
import Scripting.Proofs.Submission.Handles
import Scripting.Proofs.Check.Containment
import Scripting.Proofs.Lowering.Value
import Scripting.Proofs.Surface.Layout
import Scripting.Proofs.Surface.Progress
import Scripting.Proofs.Check.Sites
import Scripting.Proofs.Submission.Spans
import Scripting.Proofs.Check.Composition
import Scripting.Proofs.Run.Arithmetic
import Scripting.Proofs.Run.Isolation
import Scripting.Proofs.Check.Nesting
import Scripting.Proofs.Check.ImplicitDeclaration
import Scripting.Proofs.Run.Logging
import Scripting.Proofs.Run.Conversion
import Scripting.Proofs.Submission.LastValue
import Scripting.Proofs.Typed.Parts
import Scripting.Proofs.Lowering.NormalForm
import Scripting.Proofs.Check.Restoration
import Scripting.Proofs.Graph.Liveness
import Scripting.Proofs.Graph.Drawing
import Scripting.Proofs.Graph.Partition
import Scripting.Proofs.Lowering.Folding
import Scripting.Proofs.Lowering.Writes
import Scripting.Proofs.Check.Writes
import Scripting.Proofs.Submission.Writes
import Scripting.Proofs.Run.Retention
import Scripting.Proofs.Submission.ReadOnly
import Scripting.Proofs.Graph.Representation
import Scripting.Proofs.Lowering.Returns
import Scripting.Proofs.Token.Account
import Scripting.Proofs.Token.Lines
import Scripting.Proofs.Surface.Legible
import Scripting.Proofs.Typed.Printing
import Scripting.Proofs.Check.Settled
import Scripting.Proofs.Check.Rechecking
import Scripting.Proofs.Submission.Reprinting
