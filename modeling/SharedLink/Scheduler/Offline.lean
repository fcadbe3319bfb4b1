import SharedLink.Plan.Apply
import SharedLink.Plan.Build
import SharedLink.Scheduler.Log
import SharedLink.Scheduler.Settings
import SharedLink.Workflow.Graph

/-!
# SharedLink.Scheduler.Offline

Schedulers that plan a workflow once, before it is run.

A scheduler has a planning method and the hosts that were known when it was made.
A run asks the method for a plan, checks that it covers every task, writes it
into the tasks and keeps it.  What was logged before a fault stays logged.
-/

namespace SharedLink

/-- A planning method: what it logs, and what it comes to.  `none` is an answer
that is no plan. -/
abbrev PlanningMethod :=
  Workflow → List Host → List Record × Except Fault (Option (Plan Float))

namespace PlanningMethod

/-- The parents of a task in a table. -/
def writeParents (parents : List Int) : String :=
  if parents.isEmpty then "None" else ",".intercalate (parents.map Decimal.ofInt)

/-- One row of the table of a plan: rank, name, both ends of the slot, parents. -/
def row (w : Workflow) (rank : Nat) (id : Int) (slot : Slot Float) : String :=
  let name := ((w.find? id).map (·.name)).getD ""
  let parents := ((w.find? id).map (·.parents)).getD []
  "\t".intercalate [Decimal.ofNat rank, name, Decimal.fixed 2 slot.sendStart,
    Decimal.fixed 2 slot.receiveEnd, writeParents parents]

/-- A plan as a table, under the order in which its tasks were placed. -/
def table (w : Workflow) (p : Plan Float) : List Record :=
  ⟨.debug, "Presimulation order: " ++ Text.bracketed (p.order.map Decimal.ofInt)⟩ ::
    ⟨.debug, "Rank\tTask\tSendStart\tReceiveEnd\tParents"⟩ ::
      p.entries.zipIdx.map fun ((id, slot), rank) => ⟨.debug, row w rank id slot⟩

/-- The names of the tasks that fit no host, in alphabetical order. -/
def infeasibleNames (w : Workflow) (p : Plan Float) : List String :=
  sortBy (fun a b => decide (a < b))
    (p.infeasible.map fun id => ((w.find? id).map (·.name)).getD "")

/-- A warning about tasks that fit no host. -/
def infeasibleWarning (w : Workflow) (p : Plan Float) : List Record :=
  if p.infeasible.isEmpty then []
  else [⟨.warning, "no host has enough cores for tasks " ++ Text.quotedList (infeasibleNames w p)
    ++ ", using default computation time"⟩]

/-- A warning about cycles. -/
def cycleWarning (acyclic : Bool) : List Record :=
  if acyclic then []
  else [⟨.warning, "workflow has dependency cycles, plan quality is undefined"⟩]

/-- Planning for the shared link. -/
def sharedLink (settings : Settings) : PlanningMethod := fun w hosts =>
  match w.isAcyclic with
  | .error fault => ([], .error fault)
  | .ok acyclic =>
    match Plan.build Float w hosts settings.bound settings.padding with
    | .error fault => (cycleWarning acyclic, .error fault)
    | .ok p => (cycleWarning acyclic ++ infeasibleWarning w p ++ table w p, .ok (some p))

/-- Placing some tasks and nothing else. -/
def settling (ids : List Int) : PlanningMethod := fun w hosts =>
  ([], do
    let platform ← Platform.ofHosts Float hosts
    let d ← Draft.start w platform Settings.default.padding
    let d ← ids.foldlM (Draft.settled w) d
    return some (Plan.ofDraft d []))

/-- A method that has no plan to offer. -/
def planless : PlanningMethod := fun _ _ => ([], .ok none)

end PlanningMethod

/-- An offline scheduler: `timed` tells that its method has come to an end once. -/
structure Offline where
  method : PlanningMethod
  hosts : List Host
  plan : Option (Plan Float)
  timed : Bool

/-- What a run leaves behind. -/
structure Offline.Outcome where
  scheduler : Offline
  workflow : Workflow
  records : List Record
  result : Except Fault (Plan Float)

namespace Offline

/-- A scheduler that has not run. -/
def make (method : PlanningMethod) (hosts : List Host) : Offline := ⟨method, hosts, none, false⟩

/-- The names of the tasks that a plan leaves out. -/
def leftOut (w : Workflow) (p : Plan Float) : List String :=
  (w.tasks.filter fun t => !p.contains t.id).map (·.name)

/-- Plan a workflow and write the plan into its tasks. -/
def run (s : Offline) (w : Workflow) : Outcome :=
  match s.method w s.hosts with
  | (records, .error fault) => ⟨s, w, records, .error fault⟩
  | (records, .ok none) => ⟨{ s with timed := true }, w, records, .error .notAPlan⟩
  | (records, .ok (some p)) =>
    if !(leftOut w p).isEmpty then
      ⟨{ s with timed := true }, w, records, .error (.unplanned (leftOut w p))⟩
    else
      match p.apply w with
      | (w, some fault) => ⟨{ s with timed := true }, w, records, .error fault⟩
      | (w, none) =>
        ⟨{ s with plan := some p, timed := true }, w,
          records ++ [⟨.debug, "Expected makespan: " ++ Decimal.fixed 6 p.makespan⟩], .ok p⟩

/-- The tasks by rank, none before a run has succeeded. -/
def priority (s : Offline) : List Int := (s.plan.map (·.priority)).getD []

/-- When the last output is expected, unknown before a run has succeeded. -/
def expectedMakespan (s : Offline) : Option Float := s.plan.map (·.makespan)

end Offline

end SharedLink
