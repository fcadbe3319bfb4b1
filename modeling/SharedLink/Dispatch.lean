import SharedLink.Platform
import SharedLink.Selection
import SharedLink.Workflow.Basic

/-!
# SharedLink.Dispatch

Binding ready tasks to idle hosts.

Each round takes the task of the lowest rank, the first one among equals, and
the idle host that would finish it earliest, again the first one.  A pass ends
when the tasks or the idle hosts run out, or when a finish time is out of range;
the bindings made before stand in any case.
-/

namespace SharedLink

/-- A task bound to a host, which is given by its place and its name. -/
structure Binding where
  task : Int
  host : Nat
  hostName : String
deriving DecidableEq, Repr

/-- What a pass leaves behind. -/
structure Dispatched where
  workflow : Workflow
  hosts : List Host
  bindings : List Binding
  fault : Option Fault

namespace Dispatch

variable {τ : Type} [Timescale τ]

/-- When each of the hosts would finish a task that starts now. -/
def finishTimes (now : τ) (t : Task) (hosts : List (Host × Nat)) :
    Except Fault (List (τ × Host × Nat)) :=
  hosts.mapM fun (h, place) => return (now + (← timeOn τ t h), h, place)

/-- The bindings of a pass over unbound tasks and idle hosts.  Each round binds one
task for good, so there need be no more rounds than tasks. -/
def assign (now : τ) :
    (rounds : Nat) → List Task → List (Host × Nat) → List Binding × Option Fault
  | 0, _, _ => ([], none)
  | rounds + 1, tasks, idle =>
    match Selection.firstLeastOn Quantity.before (·.rank) tasks with
    | none => ([], none)
    | some t =>
      match finishTimes now t idle with
      | .error fault => ([], some fault)
      | .ok times =>
        match Selection.firstLeast (fun a b => decide (a < b)) times with
        | none => ([], none)
        | some (_, h, place) =>
          let (rest, fault) :=
            assign now rounds (tasks.filter (·.id ≠ t.id)) (idle.filter (·.2 ≠ place))
          (⟨t.id, place, h.name⟩ :: rest, fault)

/-- Enter a binding: the task gets its host, and the host is busy. -/
def enter (state : Workflow × List Host) (b : Binding) : Workflow × List Host :=
  (state.1.setHost b.task (some b.hostName),
   state.2.modify b.host fun h => { h with state := .busy })

/-- A pass over ready tasks.  Tasks may be listed repeatedly or be bound already.
They are told apart by their ids, and the hosts by their places. -/
def pass (w : Workflow) (hosts : List Host) (ready : List Task) (now : τ) : Dispatched :=
  let tasks := ready.filter (!·.isBound)
  let idle := hosts.zipIdx.filter (·.1.isIdle)
  let (bindings, fault) := assign now tasks.length tasks idle
  let (w, hosts) := bindings.foldl enter (w, hosts)
  ⟨w, hosts, bindings, fault⟩

end Dispatch

end SharedLink
