import SharedLink.Draft.Basic

/-!
# SharedLink.Plan.Basic

Finished plans.

A plan lists its tasks by rank: by the start of their input transfers, and by
their ids where those are equal.  The rank of a task is its place in that list.

* `perm_entries_ofDraft` — a plan holds the placements of its draft.
-/

namespace SharedLink

variable {τ : Type}

/-- Slots by rank, the order of placement, the tasks that fit no host, and the
reservations. -/
structure Plan (τ : Type) where
  entries : List (Int × Slot τ)
  order : List Int
  infeasible : List Int
  timeline : Timeline τ
deriving DecidableEq, Repr

namespace Plan

/-- The tasks by rank. -/
def priority (p : Plan τ) : List Int := p.entries.map (·.1)

/-- Whether a task has been planned. -/
def contains (p : Plan τ) (id : Int) : Bool := p.priority.contains id

/-- The slot and the rank of a task. -/
def find? (p : Plan τ) (id : Int) : Option (Slot τ × Nat) :=
  (p.entries.zipIdx.find? (·.1.1 == id)).map fun ((_, slot), rank) => (slot, rank)

/-- The slot and the rank of a task that has to be there. -/
def get (p : Plan τ) (id : Int) : Except Fault (Slot τ × Nat) :=
  match p.find? id with
  | some entry => .ok entry
  | none => .error (.missing id)

variable [Timescale τ]

/-- By the start of the input transfer, then by id. -/
def entryBefore (a b : Int × Slot τ) : Bool :=
  if Timescale.same a.2.sendStart b.2.sendStart then decide (a.1 < b.1)
  else decide (a.2.sendStart < b.2.sendStart)

/-- The plan that a draft has come to. -/
def ofDraft (d : Draft τ) (infeasible : List Int) : Plan τ :=
  ⟨sortBy entryBefore d.placed, d.order, sortInts infeasible, d.timeline⟩

/-- When the last output has been received, zero if there is none. -/
def makespan (p : Plan τ) : τ := Timescale.largest 0 (p.entries.map (·.2.receiveEnd))

/-- A plan holds the placements of its draft. -/
theorem perm_entries_ofDraft (d : Draft τ) (infeasible : List Int) :
    (ofDraft d infeasible).entries.Perm d.placed :=
  perm_sortBy _ _

end Plan

end SharedLink
