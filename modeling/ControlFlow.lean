import ControlFlow.Main
import ControlFlow.Fibers.Session
import ControlFlow.Tree.Outline
import ControlFlow.Tree.Supply
import ControlFlow.Proofs.Reaching.Exact
import ControlFlow.Proofs.Analysis.Classified
import ControlFlow.Proofs.Reaching.Solved
import ControlFlow.Proofs.Graph.Growth
import ControlFlow.Proofs.Flow.Runs
import ControlFlow.Proofs.Graph.Shown
import ControlFlow.Proofs.Flow.Paths
import ControlFlow.Proofs.Flow.Coverage
import ControlFlow.Proofs.Tree.Numbers
import ControlFlow.Proofs.Graph.Finished
import ControlFlow.Proofs.Graph.Bounds
import ControlFlow.Proofs.Graph.Liveness
import ControlFlow.Proofs.Tree.Without
import ControlFlow.Proofs.Pruning.Doomed
import ControlFlow.Proofs.Pruning.Rounds
import ControlFlow.Proofs.Pruning.Convergence
import ControlFlow.Proofs.Flow.Plays
import ControlFlow.Proofs.Pruning.Played
import ControlFlow.Proofs.Flow.Events
import ControlFlow.Proofs.Analysis.Recorded
import ControlFlow.Proofs.Pruning.Unseen
import ControlFlow.Proofs.Pruning.Preservation
import ControlFlow.Proofs.Tree.Behind
import ControlFlow.Proofs.Graph.CutOff
import ControlFlow.Proofs.Graph.Consistent
import ControlFlow.Proofs.Pruning.DeadCode
import ControlFlow.Proofs.Fibers.Resting
import ControlFlow.Proofs.Fibers.Held
import ControlFlow.Proofs.Fibers.Moves
import ControlFlow.Proofs.Fibers.Lawful
import ControlFlow.Proofs.Fibers.Ledger
import ControlFlow.Proofs.Fibers.LifeCycle
import ControlFlow.Proofs.Fibers.Twins
import ControlFlow.Proofs.Fibers.Alike
import ControlFlow.Proofs.Fibers.Isolation
import ControlFlow.Proofs.Fibers.Cache
import ControlFlow.Proofs.Fibers.Accounts
import ControlFlow.Proofs.Fibers.Calm
import ControlFlow.Proofs.Fibers.Statistics
import ControlFlow.Proofs.Fibers.Obedient
import ControlFlow.Proofs.Fibers.Recycling
import ControlFlow.Proofs.Fibers.Delivered
import ControlFlow.Proofs.Fibers.Course
import ControlFlow.Proofs.Fibers.Replay
import ControlFlow.Proofs.Fibers.Stages
import ControlFlow.Proofs.Fibers.Recorded
import ControlFlow.Proofs.Fibers.Cancellation
import ControlFlow.Proofs.Document.Conforming
import ControlFlow.Proofs.Tree.RoundTrip
import ControlFlow.Proofs.Tree.Stored
import ControlFlow.Proofs.Pruning.Survival
import ControlFlow.Proofs.Pruning.Scoped
import ControlFlow.Proofs.Tree.Renumbered
import ControlFlow.Proofs.Graph.Renumbered
import ControlFlow.Proofs.Analysis.Renumbered
import ControlFlow.Proofs.Pruning.Renumbered
import ControlFlow.Proofs.Pruning.Ordered
import ControlFlow.Proofs.Analysis.Sited
import ControlFlow.Proofs.Tree.Binding
import ControlFlow.Proofs.Pruning.Referents
import ControlFlow.Proofs.Analysis.Noted
import ControlFlow.Proofs.Reaching.Observed
import ControlFlow.Proofs.Reaching.Counted
import ControlFlow.Proofs.Analysis.Shared
import ControlFlow.Proofs.Reaching.Stores
import ControlFlow.Proofs.Reaching.Widened
import ControlFlow.Proofs.Graph.Census
import ControlFlow.Proofs.Tree.Taken
import ControlFlow.Proofs.Pruning.Reported
import ControlFlow.Proofs.Pruning.Announced
import ControlFlow.Proofs.Graph.Escaped
import ControlFlow.Proofs.Graph.Drawn
import ControlFlow.Proofs.Graph.Advancing
import ControlFlow.Proofs.Graph.Reentered
import ControlFlow.Proofs.Graph.Doubled
import ControlFlow.Proofs.Tree.Contexts
import ControlFlow.Proofs.Graph.Matching
import ControlFlow.Proofs.Graph.Transparent
import ControlFlow.Proofs.Tree.Filtered
import ControlFlow.Proofs.Analysis.Symmetric
import ControlFlow.Proofs.Graph.Enclosed
import ControlFlow.Proofs.Tree.Outlined
