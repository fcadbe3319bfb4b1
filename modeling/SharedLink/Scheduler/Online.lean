import SharedLink.Decimal.Written
import SharedLink.Dispatch
import SharedLink.Scheduler.Log

/-!
# SharedLink.Scheduler.Online

The scheduler that binds tasks while the workflow runs.

It knows the hosts that were there when it was made, the first ones of a list
that may have grown since.  Its first run warns of tasks without a rank, which
come last; a run that cannot tell them does nothing, and the next one is first.
It counts the bindings of the runs that ended without a fault.
-/

namespace SharedLink

/-- The number of known hosts, whether there has been a run, and the number of
bindings made. -/
structure Online where
  known : Nat
  prepared : Bool
  count : Nat
deriving DecidableEq, Repr

/-- What a run leaves behind. -/
structure Online.Outcome where
  scheduler : Online
  dispatched : Dispatched
  records : List Record

namespace Online

/-- A scheduler that knows the given hosts. -/
def make (hosts : List Host) : Online := ⟨hosts.length, false, 0⟩

/-- The tasks without a rank. -/
def unranked : List Task → Except Fault (List Task)
  | [] => .ok []
  | t :: rest => do
    if ← t.isRanked then unranked rest else return t :: (← unranked rest)

/-- A warning about tasks without a rank. -/
def unrankedWarning (w : Workflow) : Except Fault (List Record) := do
  let names := (← unranked w.tasks).map (·.name)
  if names.isEmpty then return []
  else
    return [⟨.warning,
      "tasks " ++ Text.quotedList names ++ " have no rank and will be scheduled last"⟩]

/-- One line per binding. -/
def bindingRecords (w : Workflow) (now : Float) (bindings : List Binding) : List Record :=
  bindings.map fun b =>
    let name := ((w.find? b.task).map (·.name)).getD ""
    ⟨.debug, Decimal.fixed 3 now ++ ": " ++ name ++ " -> " ++ b.hostName⟩

/-- What the first run has to say before it binds anything. -/
def prepare (s : Online) (w : Workflow) : Except Fault (List Record) :=
  if s.prepared then .ok [] else unrankedWarning w

/-- Bind ready tasks to the known hosts. -/
def run (s : Online) (w : Workflow) (hosts : List Host) (ready : List Task) (now : Float) :
    Outcome :=
  match s.prepare w with
  | .error fault => ⟨s, ⟨w, hosts, [], some fault⟩, []⟩
  | .ok warning =>
    let passed := Dispatch.pass w (hosts.take s.known) ready now
    let dispatched := { passed with hosts := passed.hosts ++ hosts.drop s.known }
    match passed.fault with
    | some _ => ⟨{ s with prepared := true }, dispatched, warning⟩
    | none =>
      ⟨⟨s.known, true, s.count + passed.bindings.length⟩, dispatched,
        warning ++ bindingRecords w now passed.bindings⟩

/-- A host whose task is done can take another. -/
def release (hosts : List Host) (place : Nat) : List Host :=
  hosts.modify place fun h => { h with state := .idle }

end Online

end SharedLink
