import SharedLink.Workflow.Basic

/-!
# SharedLink.Proofs.Calls

Operations that change a workflow in place.

An operation that gives back a new workflow is carried out as a whole or not at all.  In place
it is a row of steps, each of which checks something or writes to one task, and a fault takes
back nothing that was written before it.  The checks of an operation come before all that it
writes, so that both ways come to the same, and a call that fails has written nothing.

* `Workflow.Call`, `Call.steps` — the calls, and the steps that they take;
* `Call.run_steps` — taking the steps comes to what the operation gives, or to its fault.
-/

namespace SharedLink

namespace Workflow

/-- A call of one of the operations that build workflows. -/
inductive Call where
  | addTask (id : Int) (length cores : Quantity) (name label : Option String)
  | addDependency (parent child : Int)
  | addFile (id : Int) (name : String) (size : Quantity) (kind : FileKind.Given)
deriving DecidableEq, Repr

/-- What a call comes to. -/
def perform (w : Workflow) : Call → Except Fault Workflow
  | .addTask id length cores name label => w.addTask (Task.make id length cores name label)
  | .addDependency parent child => w.addDependency parent child
  | .addFile id name size kind => return (← w.addFile id name size kind).2

theorem find?_eq_none_iff {w : Workflow} {id : Int} :
    w.find? id = none ↔ w.contains id = false := by
  rw [← Bool.not_eq_true, contains_iff_find?, Option.eq_none_iff_forall_ne_some, not_exists]

/-- The children that are listed for an id, none if it is no task. -/
def childrenOf (w : Workflow) (id : Int) : List Int := ((w.find? id).map (·.children)).getD []

theorem childrenOf_eq {w : Workflow} {id : Int} {t : Task} (h : w.find? id = some t) :
    w.childrenOf id = t.children := by
  unfold childrenOf
  rw [h]
  rfl

/-! ## single steps -/

/-- The ids stay different from each other if a new one comes last. -/
theorem nodup_ids_concat {w : Workflow} {t : Task} (h : t.id ∉ w.ids) :
    ((w.tasks ++ [t]).map (·.id)).Nodup := by
  rw [List.map_append, List.nodup_append]
  refine ⟨w.nodup_ids, List.pairwise_singleton _ _, fun id hid last hlast heq => ?_⟩
  rw [heq, List.mem_singleton.mp hlast] at hid
  exact h hid

/-- Put a task under its id, in place of the one that is there, or else behind all others. -/
def put (w : Workflow) (t : Task) : Workflow :=
  if h : t.id ∈ w.ids then w.modify t.id fun _ => t
  else ⟨w.tasks ++ [t], nodup_ids_concat h⟩

/-- Extend the files of a task by one. -/
def pushFile (w : Workflow) (id : Int) (file : FileItem) : Workflow :=
  w.modify id fun t => { t with files := t.files ++ [file] }

/-- Steps that change a workflow in place, up to a fault; what was written before it stays. -/
abbrev InPlace (α : Type) := EStateM Fault Workflow α

namespace InPlace

/-- Insist that an id is that of a task. -/
def requireTask (id : Int) : InPlace Unit := do
  if (← getThe Workflow).contains id then pure () else throw (.unknownTask id)

/-- The steps that add a task. -/
def addTask (t : Task) : InPlace Unit := do
  if (← getThe Workflow).contains t.id then throw (.duplicateTask t.id)
  else modifyThe Workflow (·.put t)

/-- The steps that let one task depend on another. -/
def addDependency (parent child : Int) : InPlace Unit :=
  if parent = child then throw (.selfDependency parent)
  else do
    requireTask parent
    requireTask child
    if ((← getThe Workflow).childrenOf parent).contains child then pure ()
    else do
      modifyThe Workflow (·.pushChild parent child)
      modifyThe Workflow (·.pushParent child parent)

/-- The steps that attach a file to a task. -/
def addFile (id : Int) (name : String) (size : Quantity) (kind : FileKind.Given) :
    InPlace Unit := do
  requireTask id
  let file ← ofExcept (FileItem.make name size kind)
  modifyThe Workflow (·.pushFile id file)

end InPlace

/-- The steps of a call. -/
def Call.steps : Call → InPlace Unit
  | .addTask id length cores name label => InPlace.addTask (Task.make id length cores name label)
  | .addDependency parent child => InPlace.addDependency parent child
  | .addFile id name size kind => InPlace.addFile id name size kind

/-! ## steps in a row -/

namespace InPlace

section

variable {w w' : Workflow} {α β : Type}

/-- Behind a step that does not fail the rest goes on from what the step left. -/
theorem run_bind_of_ok {step : InPlace α} {rest : α → InPlace β} {a : α}
    (h : step.run w = .ok a w') : (step >>= rest).run w = (rest a).run w' := by
  rw [EStateM.run] at h
  simp only [bind, EStateM.bind, EStateM.run, h]

/-- Behind a step that fails nothing is done. -/
theorem run_bind_of_error {step : InPlace α} {rest : α → InPlace β} {fault : Fault}
    (h : step.run w = .error fault w') : (step >>= rest).run w = .error fault w' := by
  rw [EStateM.run] at h
  simp only [bind, EStateM.bind, EStateM.run, h]

end

variable {w : Workflow} {id : Int}

theorem run_getThe : (getThe Workflow : InPlace Workflow).run w = .ok w w := rfl

theorem run_modifyThe (f : Workflow → Workflow) :
    (modifyThe Workflow f : InPlace PUnit).run w = .ok ⟨⟩ (f w) := rfl

theorem run_requireTask_of_found {t : Task} (h : w.find? id = some t) :
    (requireTask id).run w = .ok () w := by
  have hknown : w.contains id = true := contains_iff_find?.mpr ⟨t, h⟩
  unfold requireTask
  rw [run_bind_of_ok run_getThe, if_pos hknown]
  rfl

theorem run_requireTask_of_missing (h : w.find? id = none) :
    (requireTask id).run w = .error (.unknownTask id) w := by
  have hunknown : ¬w.contains id = true :=
    Bool.eq_false_iff.mp (find?_eq_none_iff.mp h)
  unfold requireTask
  rw [run_bind_of_ok run_getThe, if_neg hunknown]
  rfl

/-! ## steps and wholes -/

/-- What comes of an operation that is carried out as a whole or not at all. -/
def whole (w : Workflow) : Except Fault Workflow → EStateM.Result Fault Workflow Unit
  | .ok w' => .ok () w'
  | .error fault => .error fault w

theorem run_addTask (t : Task) : (addTask t).run w = whole w (w.addTask t) := by
  have htaken : w.contains t.id = true ↔ t.id ∈ w.ids := List.contains_iff_mem
  unfold addTask Workflow.addTask
  rw [run_bind_of_ok run_getThe]
  by_cases h : t.id ∈ w.tasks.map (·.id)
  · rw [if_pos (htaken.mpr h), dif_pos h]
    rfl
  · rw [if_neg (mt htaken.mp h), dif_neg h]
    have hput : w.put t = _ := dif_neg h
    rw [run_modifyThe, hput]
    rfl

theorem run_addDependency (parent child : Int) :
    (addDependency parent child).run w = whole w (w.addDependency parent child) := by
  unfold addDependency Workflow.addDependency
  by_cases hself : parent = child
  · rw [if_pos hself, if_pos hself]
    rfl
  · rw [if_neg hself, if_neg hself]
    cases hp : w.find? parent with
    | none =>
        rw [run_bind_of_error (run_requireTask_of_missing hp)]
        rfl
    | some p =>
        rw [run_bind_of_ok (run_requireTask_of_found hp)]
        cases hc : w.find? child with
        | none =>
            rw [run_bind_of_error (run_requireTask_of_missing hc)]
            rfl
        | some c =>
            rw [run_bind_of_ok (run_requireTask_of_found hc), run_bind_of_ok run_getThe,
              childrenOf_eq hp]
            by_cases hlisted : p.children.contains child = true
            · simp only [if_pos hlisted]
              rfl
            · simp only [if_neg hlisted]
              rfl

theorem run_addFile (id : Int) (name : String) (size : Quantity) (kind : FileKind.Given) :
    (addFile id name size kind).run w = whole w (return (← w.addFile id name size kind).2) := by
  unfold addFile Workflow.addFile
  cases ht : w.find? id with
  | none =>
      rw [run_bind_of_error (run_requireTask_of_missing ht)]
      rfl
  | some t =>
      rw [run_bind_of_ok (run_requireTask_of_found ht)]
      cases FileItem.make name size kind with
      | error fault => rfl
      | ok file => rfl

end InPlace

/-- **Steps and wholes**: the steps of a call come to what the operation gives, and its fault
leaves the workflow as it was, since every check comes before all that is written. -/
theorem Call.run_steps (call : Call) (w : Workflow) :
    call.steps.run w = InPlace.whole w (w.perform call) := by
  cases call with
  | addTask id length cores name label => exact InPlace.run_addTask _
  | addDependency parent child => exact InPlace.run_addDependency parent child
  | addFile id name size kind => exact InPlace.run_addFile id name size kind

end Workflow

end SharedLink
