import SharedLink.Draft.Ranking
import SharedLink.Draft.Trial
import SharedLink.Plan.Basic
import SharedLink.Workflow.Check

/-!
# SharedLink.Plan.Build

Planning a workflow for a link that all transfers share.

Paths are served by decreasing cost.  Before each task of a path its parents that
have not been placed are settled, in the best order if there are several, and
then the task itself.  Tasks that no path reaches come last.  Everything that can
be wrong with the arguments is found before the first task is placed.
-/

namespace SharedLink

namespace Plan

variable {τ : Type} [Timescale τ]

/-- The parents of a task that have not been placed. -/
def openParents (d : Draft τ) (t : Task) : List Int :=
  t.parents.filter fun parent => !d.order.contains parent

/-- Settle a task, its open parents first. -/
def serveTask (w : Workflow) (bound : Int) (d : Draft τ) (id : Int) : Except Fault (Draft τ) := do
  let parents := openParents d (← w.get id)
  let parents ← if parents.length ≤ 1 then pure parents else d.arrange w bound parents
  let d ← parents.foldlM (Draft.settled w) d
  d.settled w id

/-- Settle the tasks of a path in turn. -/
def servePath (w : Workflow) (bound : Int) (d : Draft τ) (path : List Int) :
    Except Fault (Draft τ) :=
  path.foldlM (serveTask w bound) d

/-- Settle all tasks, those on costly paths first. -/
def serve (w : Workflow) (bound : Int) (d : Draft τ) : Except Fault (Draft τ) := do
  let ranked ← d.rankPaths (← w.paths)
  let d ← ranked.foldlM (servePath w bound) d
  w.ids.foldlM (Draft.settled w) d

/-- Plan a workflow on hosts.  `bound` is the largest set of parents that is tried
in every order, `padding` goes on both sides of every reservation. -/
def build (τ : Type) [Timescale τ] (w : Workflow) (hosts : List Host) (bound : Int)
    (padding : Quantity) : Except Fault (Plan τ) := do
  if bound < 0 then throw (.negativeBound bound)
  w.check
  let platform ← Platform.ofHosts τ hosts
  let d ← Draft.start w platform padding
  let d ← serve w bound d
  return ofDraft d ((w.tasks.filter fun t => !platform.isFeasible t).map (·.id))

end Plan

end SharedLink
