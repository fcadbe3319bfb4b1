import SharedLink.Binary64
import SharedLink.Decimal.Digits
import SharedLink.Decimal.Shortest
import SharedLink.Decimal.Written
import SharedLink.Dispatch
import SharedLink.Draft.Basic
import SharedLink.Draft.Ranking
import SharedLink.Draft.Trial
import SharedLink.Fault
import SharedLink.Fraction
import SharedLink.Host
import SharedLink.Mean
import SharedLink.Orderings
import SharedLink.Plan.Apply
import SharedLink.Plan.Basic
import SharedLink.Plan.Build
import SharedLink.Platform
import SharedLink.Proofs.Ancestry
import SharedLink.Proofs.Annotations
import SharedLink.Proofs.Arithmetic
import SharedLink.Proofs.Arrangement
import SharedLink.Proofs.Backtracking
import SharedLink.Proofs.Blocks
import SharedLink.Proofs.Capacity
import SharedLink.Proofs.Commitment
import SharedLink.Proofs.Completeness
import SharedLink.Proofs.Conflicts
import SharedLink.Proofs.Consistency
import SharedLink.Proofs.Construction
import SharedLink.Proofs.CriticalPath
import SharedLink.Proofs.Cycles
import SharedLink.Proofs.Delays
import SharedLink.Proofs.Doubles
import SharedLink.Proofs.Durations
import SharedLink.Proofs.Entries
import SharedLink.Proofs.Exclusion
import SharedLink.Proofs.Exhaustion
import SharedLink.Proofs.Exploration
import SharedLink.Proofs.Gaps
import SharedLink.Proofs.Graphs
import SharedLink.Proofs.Ledgers
import SharedLink.Proofs.Legs
import SharedLink.Proofs.Listing
import SharedLink.Proofs.Monotony
import SharedLink.Proofs.Outcomes
import SharedLink.Proofs.Overlaps
import SharedLink.Proofs.Packing
import SharedLink.Proofs.Pairing
import SharedLink.Proofs.Passes
import SharedLink.Proofs.Permutations
import SharedLink.Proofs.Placement
import SharedLink.Proofs.Precedence
import SharedLink.Proofs.Priority
import SharedLink.Proofs.Progress
import SharedLink.Proofs.Ranks
import SharedLink.Proofs.Replay
import SharedLink.Proofs.Rounding
import SharedLink.Proofs.Rounds
import SharedLink.Proofs.Routes
import SharedLink.Proofs.Selections
import SharedLink.Proofs.Serial
import SharedLink.Proofs.Sessions
import SharedLink.Proofs.Settling
import SharedLink.Proofs.Signs
import SharedLink.Proofs.Stability
import SharedLink.Proofs.Sums
import SharedLink.Proofs.Teams
import SharedLink.Proofs.Times
import SharedLink.Proofs.Trials
import SharedLink.Proofs.Turns
import SharedLink.Proofs.Undisturbed
import SharedLink.Proofs.Vacancies
import SharedLink.Proofs.Verdict
import SharedLink.Quantity
import SharedLink.Scheduler.Log
import SharedLink.Scheduler.Offline
import SharedLink.Scheduler.Online
import SharedLink.Scheduler.Settings
import SharedLink.Selection
import SharedLink.Sorting
import SharedLink.Task
import SharedLink.Text.Blank
import SharedLink.Text.DecimalDigit
import SharedLink.Text.Numeral
import SharedLink.Text.Printable
import SharedLink.Text.Quoted
import SharedLink.Timeline
import SharedLink.Timescale
import SharedLink.Workflow.Ancestry
import SharedLink.Workflow.Basic
import SharedLink.Workflow.Check
import SharedLink.Workflow.Graph
import SharedLink.Workflow.Paths
import SharedLink.Proofs.Enumeration
import SharedLink.Proofs.Histories
import SharedLink.Proofs.Hosts
import SharedLink.Proofs.Requests
