import Workflow.Session
import Workflow.SharedCell
import Workflow.Proofs.Around
import Workflow.Proofs.Config.Variables
import Workflow.Proofs.Listeners.Rounds
import Workflow.Proofs.Expression.Splitting
import Workflow.Proofs.Expression.Grammar
import Workflow.Proofs.Expression.Found
import Workflow.Proofs.Expression.Reading
import Workflow.Proofs.Expression.Acceptance
import Workflow.Proofs.Expression.RoundTrip
import Workflow.Proofs.Expression.Refusals
import Workflow.Proofs.Expression.Aliases
import Workflow.Proofs.Plan.Caching
import Workflow.Proofs.Plan.Choices
import Workflow.Proofs.Plan.Groups
import Workflow.Proofs.Plan.Growth
import Workflow.Proofs.Plan.WellFormed
import Workflow.Proofs.Plan.Leaves
import Workflow.Proofs.Plan.Indexes
import Workflow.Proofs.Plan.Forks
import Workflow.Proofs.Plan.InPlace
import Workflow.Proofs.Run.Segments
import Workflow.Proofs.Run.Signals
import Workflow.Proofs.Run.Ahead
import Workflow.Proofs.Run.Decisions
import Workflow.Proofs.Run.Descent
import Workflow.Proofs.Run.Owes
import Workflow.Proofs.Run.Permits
import Workflow.Proofs.Run.Standstill
import Workflow.Proofs.Run.Steps
import Workflow.Proofs.Run.Progress
import Workflow.Proofs.Run.Refinement
import Workflow.Proofs.Run.History
import Workflow.Proofs.Run.Moves
import Workflow.Proofs.Run.Ledger
import Workflow.Proofs.Run.Turns
import Workflow.Proofs.Run.Apart
import Workflow.Proofs.Run.Blind
import Workflow.Proofs.Run.Bookkeeping
import Workflow.Proofs.Run.Nesting
import Workflow.Proofs.Run.SingleBranch
import Workflow.Proofs.Run.Sites
import Workflow.Proofs.Run.Conduct
import Workflow.Proofs.Run.Failures
import Workflow.Proofs.Run.Outcomes
import Workflow.Proofs.Run.Missing
import Workflow.Proofs.Run.Staffing
import Workflow.Proofs.Run.Reuse
import Workflow.Proofs.Run.Published
import Workflow.Proofs.Run.Labels
import Workflow.Proofs.Run.Parts
import Workflow.Proofs.Run.Arms
import Workflow.Proofs.Run.Alternatives
import Workflow.Proofs.Run.Endurance
import Workflow.Proofs.Run.StepsOver
import Workflow.Proofs.Run.Once
import Workflow.Proofs.Run.Allowance
import Workflow.Proofs.Run.Bounded
import Workflow.Proofs.Run.Courses
import Workflow.Proofs.Run.Endings
import Workflow.Proofs.Run.Branches
import Workflow.Proofs.Run.Joins
import Workflow.Proofs.Run.Landings
import Workflow.Proofs.Run.Shutdowns
import Workflow.Proofs.Run.Leftovers
import Workflow.Proofs.Run.OwnKeys
import Workflow.Proofs.Run.FailStop
import Workflow.Proofs.Run.Anchors
import Workflow.Proofs.Run.StaticGroups
import Workflow.Proofs.Run.Errands
import Workflow.Proofs.Run.Rosters
import Workflow.Proofs.Run.Lifecycle
import Workflow.Proofs.Run.Executions
