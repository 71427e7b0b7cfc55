import Interleave.Campaign.Fleet
import Interleave.Configuration.Document
import Interleave.Minimize.Minimization
import Interleave.Program.Document
import Interleave.Report.Document
import Interleave.Violation.Document
import Interleave.Proofs.Pause
import Interleave.Proofs.Pause.Simulation
import Interleave.Proofs.ChoiceTree
import Interleave.Proofs.DepthFirst.Trail
import Interleave.Proofs.DepthFirst.Exhaustive
import Interleave.Proofs.Conformance
import Interleave.Proofs.Conformance.Composed
import Interleave.Proofs.Conformance.Histories
import Interleave.Proofs.Conformance.Counting
import Interleave.Proofs.Liveness.Chase
import Interleave.Proofs.Liveness.Confirmation
import Interleave.Proofs.Liveness.Ending
import Interleave.Proofs.Liveness.Carrying
import Interleave.Proofs.Liveness.Unseen
import Interleave.Proofs.Liveness.Forwarding
import Interleave.Proofs.Liveness.Fairness
import Interleave.Proofs.Replay.Recording
import Interleave.Proofs.Replay.Following
import Interleave.Proofs.PartialOrder.Saturation
import Interleave.Proofs.Campaign
import Interleave.Proofs.Minimization
import Interleave.Proofs.Minimization.Halving
import Interleave.Proofs.Minimization.Trials
import Interleave.Proofs.Minimization.Bounds
import Interleave.Proofs.Minimization.HandOff
import Interleave.Proofs.Minimization.Overflow
import Interleave.Proofs.Outcome
import Interleave.Proofs.State.History
import Interleave.Proofs.State.Captures
import Interleave.Proofs.Json.Reading
import Interleave.Proofs.Trace.Persistence
import Interleave.Proofs.Json.Records
import Interleave.Proofs.Configuration.Persistence
import Interleave.Proofs.PartialOrder.Precedence
import Interleave.Proofs.PartialOrder.Iterations
import Interleave.Proofs.PartialOrder.Stack
import Interleave.Proofs.PartialOrder.Distinct
import Interleave.Proofs.Replay.Liveness
import Interleave.Proofs.Report.Merging
import Interleave.Proofs.Report.Recording
import Interleave.Proofs.Report.Balance
import Interleave.Proofs.Campaign.Fleet
import Interleave.Proofs.Campaign.Accounts
