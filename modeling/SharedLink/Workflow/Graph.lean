import SharedLink.Workflow.Basic

/-!
# SharedLink.Workflow.Graph

The graph of a workflow, and whether it has cycles.

The nodes are the tasks and whatever else is listed as a child; an edge leads
from a task to each of its children and carries the bytes that the task sends.
However often a child is listed, there is one edge to it.

A cycle is found by elimination: nodes from which no edge leads to a node that is
left are taken away, as many times as there are nodes.  What is then left is
empty just if there is no cycle.
-/

namespace SharedLink

/-- A dependency with the bytes that go along it. -/
structure Edge where
  source : Int
  target : Int
  weight : Quantity
deriving DecidableEq, Repr

/-- A directed graph; a node says whether it is a task. -/
structure TaskGraph where
  nodes : List (Int × Bool)
  edges : List Edge
deriving DecidableEq, Repr

namespace TaskGraph

/-- The nodes of a list from which an edge leads into the list. -/
def leadingInto (g : TaskGraph) (nodes : List Int) : List Int :=
  nodes.filter fun n => g.edges.any fun e => e.source == n && nodes.contains e.target

/-- What is left of a list of nodes after some rounds of elimination. -/
def eliminate (g : TaskGraph) : (rounds : Nat) → List Int → List Int
  | 0, nodes => nodes
  | rounds + 1, nodes => eliminate g rounds (g.leadingInto nodes)

/-- Whether no edges lead from a node back to it. -/
def isAcyclic (g : TaskGraph) : Bool :=
  (g.eliminate g.nodes.length (g.nodes.map (·.1))).isEmpty

end TaskGraph

namespace Workflow

/-- The edges from a task, one to each child.  Without children the size of its
output is not asked for. -/
def edgesFrom (t : Task) : Except Fault (List Edge) :=
  if t.children.isEmpty then .ok []
  else do
    let size ← t.outputSize
    return t.children.eraseDups.map fun child => ⟨t.id, child, size⟩

/-- Listed children that are no tasks, in the order in which they are met. -/
def strangers (w : Workflow) : List Int :=
  ((w.tasks.flatMap (·.children)).filter fun id => !w.contains id).eraseDups

/-- The graph of a workflow. -/
def graph (w : Workflow) : Except Fault TaskGraph := do
  let edges ← w.tasks.mapM edgesFrom
  return ⟨w.ids.map (·, true) ++ w.strangers.map (·, false), edges.flatten⟩

/-- Whether no task is its own descendant. -/
def isAcyclic (w : Workflow) : Except Fault Bool := return (← w.graph).isAcyclic

end Workflow

end SharedLink
