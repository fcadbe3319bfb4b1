import SharedLink.Draft.Basic
import SharedLink.Workflow.Paths

/-!
# SharedLink.Draft.Ranking

Paths by their cost.

The cost of a path is the sum of the costs of its tasks, added from the front.
-/

namespace SharedLink

namespace Draft

variable {τ : Type} [Timescale τ]

/-- The cost of a path. -/
def pathCost (d : Draft τ) (path : List Int) : Except Fault τ := do
  let costs ← path.mapM fun id => return (← d.costOf id).total
  return costs.foldl (· + ·) 0

/-- Paths by decreasing cost, in their order where costs are equal. -/
def rankPaths (d : Draft τ) (paths : List (List Int)) : Except Fault (List (List Int)) := do
  let priced ← paths.mapM fun path => return (← d.pathCost path, path)
  return (sortBy (fun a b => decide (b.1 < a.1)) priced).map (·.2)

end Draft

end SharedLink
