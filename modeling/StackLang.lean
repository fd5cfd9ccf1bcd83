import StackLang.Main
import StackLang.Proofs.Executable.StringPool
import StackLang.Proofs.Machine.Wp
import StackLang.Proofs.Machine.Effects
import StackLang.Proofs.Machine.Frames
import StackLang.Proofs.Machine.Visits
import StackLang.Proofs.Verify.Paths
import StackLang.Proofs.Verify.Runs
import StackLang.Proofs.Verify.Soundness
import StackLang.Proofs.Verify.Returns
import StackLang.Proofs.Machine.HostVars
import StackLang.Proofs.Machine.Limits
import StackLang.Proofs.Executable.RoundTrip
import StackLang.Proofs.Code.Builder
import StackLang.Proofs.Compile.Symbols
import StackLang.Proofs.Compile.Steps
import StackLang.Proofs.Compile.Emitted
import StackLang.Proofs.Compile.Operators
import StackLang.Proofs.Compile.Nodes
import StackLang.Proofs.Compile.Functions
import StackLang.Proofs.Tree.Built
import StackLang.Proofs.Compile.Scopes
import StackLang.Proofs.Verify.Certificates
import StackLang.Proofs.Compile.Balance
import StackLang.Proofs.Compile.Verified
import StackLang.Proofs.Compile.Branches
import StackLang.Proofs.Reference.Evaluator
import StackLang.Proofs.Compile.Owned
import StackLang.Proofs.Compile.Made
import StackLang.Proofs.Machine.Progress
import StackLang.Proofs.Simulation.Denotes
import StackLang.Proofs.Simulation.Activations
import StackLang.Proofs.Simulation.Agreement
import StackLang.Proofs.Simulation.Operands
import StackLang.Proofs.Simulation.Beside
import StackLang.Proofs.Typing.Programs
import StackLang.Proofs.Simulation.Safety
import StackLang.Proofs.Storage.Apart
import StackLang.Proofs.Storage.StaticLinks
import StackLang.Proofs.Verify.Exact
import StackLang.Proofs.Machine.Draws
import StackLang.Proofs.Verify.Calls
import StackLang.Proofs.Loops.Rounds
import StackLang.Proofs.Code.RoundTrip
import StackLang.Proofs.Code.Failures
import StackLang.Proofs.Storage.ReadBack
import StackLang.Proofs.Compile.Neutral
import StackLang.Proofs.Executable.StringIds
import StackLang.Proofs.Compile.Resolution
import StackLang.Proofs.Compile.Numbers
import StackLang.Proofs.Natives.Forwards
import StackLang.Proofs.Executable.Truncation
import StackLang.Proofs.Machine.Bookkeeping
import StackLang.Proofs.Compile.StrictReturns
import StackLang.Proofs.Strings.Texts
import StackLang.Proofs.Tree.Growth
import StackLang.Proofs.Compile.Located
