import SharedLink.Plan.Basic
import SharedLink.Workflow.Basic

/-!
# SharedLink.Plan.Apply

Writing a plan into the tasks of a workflow.

Tasks are written by rank.  A task is planned once: one with a finite rank, one
whose rank is too wide to tell, or one that is not there, stops the writing, and
what has been written stays.

* `ids_apply` — writing a plan adds and removes no tasks.
-/

namespace SharedLink

namespace Plan

/-- Write entries from a rank on. -/
def writeFrom (rank : Nat) : List (Int × Slot Float) → Workflow → Workflow × Option Fault
  | [], w => (w, none)
  | (id, slot) :: rest, w =>
    match w.find? id with
    | none => (w, some (.missing id))
    | some t =>
      match t.isRanked with
      | .error fault => (w, some fault)
      | .ok true => (w, some (.alreadyPlanned id))
      | .ok false =>
        writeFrom (rank + 1) rest
          (w.modify id fun t => { t with slot := some slot, rank := .int rank })

/-- Write a plan into the tasks of a workflow. -/
def apply (p : Plan Float) (w : Workflow) : Workflow × Option Fault := writeFrom 0 p.entries w

/-- Writing entries adds and removes no tasks. -/
theorem ids_writeFrom (rank : Nat) (entries : List (Int × Slot Float)) (w : Workflow) :
    (writeFrom rank entries w).1.ids = w.ids := by
  induction entries generalizing rank w with
  | nil => rfl
  | cons entry rest ih =>
    simp only [writeFrom]
    split
    · rfl
    · split
      · rfl
      · rfl
      · rw [ih, Workflow.ids_modify]

/-- Writing a plan adds and removes no tasks. -/
theorem ids_apply (p : Plan Float) (w : Workflow) : (p.apply w).1.ids = w.ids :=
  ids_writeFrom 0 p.entries w

end Plan

end SharedLink
