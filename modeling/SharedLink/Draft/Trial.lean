import SharedLink.Draft.Basic
import SharedLink.Orderings
import SharedLink.Selection

/-!
# SharedLink.Draft.Trial

Trying an order without committing to it, and choosing the best one.

A trial places tasks on a copy of the reservations; a parent ends where the trial
put it, or else where the draft has it.  Few parents are tried in every order and
the first order with the earliest end of all wins; many are taken by decreasing
cost.
-/

namespace SharedLink

namespace Draft

variable {τ : Type} [Timescale τ]

/-- Note the end of a task; a task that has one keeps its place. -/
def note (id : Int) (t : τ) : List (Int × τ) → List (Int × τ)
  | [] => [(id, t)]
  | (other, u) :: rest => if other = id then (id, t) :: rest else (other, u) :: note id t rest

/-- The ends of tasks tried in turn. -/
def trialEnds (d : Draft τ) (w : Workflow) :
    List Int → Timeline τ → List (Int × τ) → Except Fault (List (Int × τ))
  | [], _, ends => .ok ends
  | id :: rest, line, ends => do
    let (slot, line) ← d.fit w (fun parent => (ends.lookup parent).or (d.endOf? parent)) id line
    trialEnds d w rest line (note id slot.receiveEnd ends)

/-- The latest end of tasks tried in turn, zero if there are none. -/
def trial (d : Draft τ) (w : Workflow) (order : List Int) : Except Fault τ := do
  let ends ← d.trialEnds w order d.timeline []
  return Timescale.largest 0 (ends.map (·.2))

/-- Tasks by decreasing cost, in their order where costs are equal. -/
def byCost (d : Draft τ) (ids : List Int) : Except Fault (List Int) := do
  let priced ← ids.mapM fun id => return ((← d.costOf id).total, id)
  return (sortBy (fun a b => decide (b.1 < a.1)) priced).map (·.2)

/-- The order in which to place the parents of a task: of all orders the first
with the least trial, or by decreasing cost if there are more than `bound`. -/
def arrange (d : Draft τ) (w : Workflow) (bound : Int) (parents : List Int) :
    Except Fault (List Int) := do
  if bound < parents.length then d.byCost parents
  else
    let tried ← (orderings parents).mapM fun order => return (← d.trial w order, order)
    return ((Selection.firstLeast (fun a b => decide (a < b)) tried).map (·.2)).getD []

end Draft

end SharedLink
