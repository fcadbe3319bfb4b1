import SharedLink.Platform
import SharedLink.Timeline
import SharedLink.Workflow.Ancestry

/-!
# SharedLink.Draft.Basic

A plan in the making.

A draft holds the expected costs of the tasks, the reservations of the link so
far, and the tasks that have been placed, in the order of their placement.  A
task is sent as soon as its parents have been received and the link is free, is
computed, and is received once the link is free again; both legs are padded on
both sides when they are reserved.

The send leg is reserved before the gap for the receive leg is sought, so a
computation shorter than the padding can be pushed back by its own send leg.

The workflow is no part of the draft: it may grow while a draft is kept, and the
tasks added to it have no cost then.

* `placed_place` — placing a task adds it at the end and changes nothing before.
-/

namespace SharedLink

variable {τ : Type}

/-- Costs, reservations, and placements in their order. -/
structure Draft (τ : Type) where
  padding : τ
  costs : List (Int × Cost τ)
  timeline : Timeline τ
  placed : List (Int × Slot τ)
deriving DecidableEq, Repr

namespace Draft

/-- The placed tasks in the order of their placement. -/
def order (d : Draft τ) : List Int := d.placed.map (·.1)

/-- The slot of a placed task. -/
def slotOf? (d : Draft τ) (id : Int) : Option (Slot τ) := d.placed.lookup id

/-- When the output of a placed task has been received. -/
def endOf? (d : Draft τ) (id : Int) : Option τ := (d.slotOf? id).map (·.receiveEnd)

/-- The expected cost of a task. -/
def costOf (d : Draft τ) (id : Int) : Except Fault (Cost τ) :=
  match d.costs.lookup id with
  | some cost => .ok cost
  | none => .error (.missing id)

variable [Timescale τ]

/-- An empty draft with the cost of every task.  An empty workflow needs no
padding, so none is asked for.  An integer padding beyond the range of doubles is
refused here, when the draft is started, and not only at the first reservation
that it would be added to. -/
def start (w : Workflow) (p : Platform τ) (padding : Quantity) : Except Fault (Draft τ) := do
  if padding.isNegative then throw (.negativePadding padding)
  let costs ← w.tasks.mapM fun t => return (t.id, ← p.cost t)
  let padding ← if w.tasks.isEmpty then pure ((Timescale.ofQuantity? padding).getD 0)
    else timeOf τ padding
  return ⟨padding, costs, .empty, []⟩

/-- The time from the last received parent to the start of a task. -/
abbrev readyDelay : τ := 1

/-- When a task can be sent: once the last of its parents has been received and the
delay has passed.  A parent of which no end is known counts as received at zero. -/
def readyAt (endOf? : Int → Option τ) (t : Task) : τ :=
  Timescale.largest 0 (t.parents.map fun parent => (endOf? parent).getD 0 + readyDelay)

/-- Find a slot for a task on a timeline and reserve both of its legs. -/
def fit (d : Draft τ) (w : Workflow) (endOf? : Int → Option τ) (id : Int) (line : Timeline τ) :
    Except Fault (Slot τ × Timeline τ) := do
  let cost ← d.costOf id
  let task ← w.get id
  let sendStart := line.earliestGap (readyAt endOf? task) cost.transfer
  let finish := sendStart + cost.transfer + cost.comp
  let line ← line.reserve (sendStart - d.padding) (sendStart + cost.transfer + d.padding)
  let receiveStart := line.earliestGap finish cost.transfer
  let receiveEnd := receiveStart + cost.transfer
  let line ← line.reserve (receiveStart - d.padding) (receiveEnd + d.padding)
  return (⟨sendStart, receiveStart, receiveEnd⟩, line)

/-- Place a task. -/
def place (d : Draft τ) (w : Workflow) (id : Int) : Except Fault (Draft τ) := do
  let (slot, line) ← d.fit w d.endOf? id d.timeline
  return { d with timeline := line, placed := d.placed ++ [(id, slot)] }

/-- Place tasks in turn, up to the first that cannot be placed. -/
def placeAll (w : Workflow) : Draft τ → List Int → Draft τ × Option Fault
  | d, [] => (d, none)
  | d, id :: rest =>
    match d.place w id with
    | .ok d => placeAll w d rest
    | .error fault => (d, some fault)

/-- Place a task with its ancestors in front of it, as far as they are not placed
yet.  What has been placed before a fault stays placed. -/
def settle (w : Workflow) (d : Draft τ) (id : Int) : Draft τ × Option Fault :=
  let walk := w.ancestry d.order id
  let (d, fault) := d.placeAll w (walk.order.drop d.order.length)
  (d, fault.or (walk.stuck.map .missing))

/-- Place a task with its ancestors, or report the fault. -/
def settled (w : Workflow) (d : Draft τ) (id : Int) : Except Fault (Draft τ) :=
  match d.settle w id with
  | (d, none) => .ok d
  | (_, some fault) => .error fault

/-! ## what a placement changes -/

/-- Placing a task adds it at the end and changes nothing before. -/
theorem placed_place {d d' : Draft τ} {w : Workflow} {id : Int} (h : d.place w id = .ok d') :
    ∃ slot, d'.placed = d.placed ++ [(id, slot)] := by
  simp only [place] at h
  cases hf : d.fit w d.endOf? id d.timeline with
  | error fault => simp [hf, bind, Except.bind] at h
  | ok found =>
    simp only [hf, bind, Except.bind, pure, Except.pure, Except.ok.injEq] at h
    exact ⟨found.1, by rw [← h]⟩

/-- A placed task ends the order. -/
theorem order_place {d d' : Draft τ} {w : Workflow} {id : Int} (h : d.place w id = .ok d') :
    d'.order = d.order ++ [id] := by
  obtain ⟨slot, hs⟩ := placed_place h
  simp [order, hs]

end Draft

end SharedLink
