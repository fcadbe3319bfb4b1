import SharedLink.Task

/-!
# SharedLink.Workflow.Basic

Workflows: tasks by id, in the order in which they were added.

No two tasks share an id; this is part of the type.  Dependencies are added on
both ends at once.  Ends can also be extended one by one, without any check, and
then need not agree (`SharedLink.Workflow.Check`).

* `find?_addTask`, `find?_modify` — what an operation does to the task of an id.
-/

namespace SharedLink

/-- Tasks in the order in which they were added, each with an id of its own. -/
structure Workflow where
  tasks : List Task
  nodup_ids : (tasks.map (·.id)).Nodup
deriving DecidableEq

namespace Workflow

/-- No tasks. -/
def empty : Workflow := ⟨[], .nil⟩

instance : Inhabited Workflow := ⟨empty⟩

/-- The ids of all tasks. -/
def ids (w : Workflow) : List Int := w.tasks.map (·.id)

/-- The task of an id. -/
def find? (w : Workflow) (id : Int) : Option Task := w.tasks.find? (·.id == id)

/-- Whether an id is that of a task. -/
def contains (w : Workflow) (id : Int) : Bool := w.ids.contains id

/-- The task of an id that has to be there. -/
def get (w : Workflow) (id : Int) : Except Fault Task :=
  match w.find? id with
  | some t => .ok t
  | none => .error (.missing id)

/-- The tasks without parents. -/
def roots (w : Workflow) : List Task := w.tasks.filter (·.parents.isEmpty)

/-- The tasks without children. -/
def leaves (w : Workflow) : List Task := w.tasks.filter (·.children.isEmpty)

/-! ## changes -/

/-- Change the task of an id, all but the id itself. -/
def modify (w : Workflow) (id : Int) (f : Task → Task) : Workflow where
  tasks := w.tasks.map fun t => if t.id = id then { f t with id := t.id } else t
  nodup_ids := by
    have : w.tasks.map ((·.id) ∘ fun t => if t.id = id then { f t with id := t.id } else t)
        = w.tasks.map (·.id) :=
      List.map_congr_left fun t _ => by simp only [Function.comp]; split <;> rfl
    rw [List.map_map, this]
    exact w.nodup_ids

/-- Add a task at the end, unless its id is taken. -/
def addTask (w : Workflow) (t : Task) : Except Fault Workflow :=
  if h : t.id ∈ w.tasks.map (·.id) then .error (.duplicateTask t.id)
  else .ok {
    tasks := w.tasks ++ [t]
    nodup_ids := by
      rw [List.map_append, List.nodup_append]
      exact ⟨w.nodup_ids, by simp, by grind⟩ }

/-- Let one task depend on another.  A dependency that is there already is kept
as it is. -/
def addDependency (w : Workflow) (parent child : Int) : Except Fault Workflow :=
  if parent = child then .error (.selfDependency parent)
  else
    match w.find? parent, w.find? child with
    | none, _ => .error (.unknownTask parent)
    | some _, none => .error (.unknownTask child)
    | some p, some _ =>
      if p.children.contains child then .ok w
      else .ok ((w.modify parent fun t => { t with children := t.children ++ [child] }).modify child
        fun t => { t with parents := t.parents ++ [parent] })

/-- Attach a file to a task. -/
def addFile (w : Workflow) (id : Int) (name : String) (size : Quantity) (kind : FileKind.Given) :
    Except Fault (FileItem × Workflow) :=
  match w.find? id with
  | none => .error (.unknownTask id)
  | some _ => do
    let file ← FileItem.make name size kind
    return (file, w.modify id fun t => { t with files := t.files ++ [file] })

/-- Extend the parents of a task by an id, whatever that is. -/
def pushParent (w : Workflow) (id parent : Int) : Workflow :=
  w.modify id fun t => { t with parents := t.parents ++ [parent] }

/-- Extend the children of a task by an id, whatever that is. -/
def pushChild (w : Workflow) (id child : Int) : Workflow :=
  w.modify id fun t => { t with children := t.children ++ [child] }

/-- Give a task a rank. -/
def setRank (w : Workflow) (id : Int) (rank : Quantity) : Workflow :=
  w.modify id fun t => { t with rank := rank }

/-- Bind a task to a host, or to none. -/
def setHost (w : Workflow) (id : Int) (host : Option String) : Workflow :=
  w.modify id fun t => { t with host := host }

/-! ## lookups after changes -/

/-- An id is contained just if its task is found. -/
theorem contains_iff_find? {w : Workflow} {id : Int} :
    w.contains id = true ↔ ∃ t, w.find? id = some t := by
  simp only [contains, ids, find?, List.contains_iff_mem, List.mem_map]
  constructor
  · rintro ⟨t, ht, rfl⟩
    cases h : w.tasks.find? (·.id == t.id) with
    | some u => exact ⟨u, rfl⟩
    | none => exact absurd (List.find?_eq_none.1 h t ht) (by simp)
  · rintro ⟨t, ht⟩
    exact ⟨t, List.mem_of_find?_eq_some ht, by simpa using List.find?_some ht⟩

/-- The task found under an id has that id. -/
theorem id_of_find? {w : Workflow} {id : Int} {t : Task} (h : w.find? id = some t) : t.id = id := by
  simpa using List.find?_some h

/-- Changing a task changes no id. -/
@[simp] theorem ids_modify (w : Workflow) (id : Int) (f : Task → Task) :
    (w.modify id f).ids = w.ids := by
  simp only [ids, modify, List.map_map]
  exact List.map_congr_left fun t _ => by simp only [Function.comp]; split <;> rfl

/-- Changing the task of an id changes what is found under it and nothing else. -/
theorem find?_modify (w : Workflow) (id : Int) (f : Task → Task) (other : Int) :
    (w.modify id f).find? other =
      if other = id then (w.find? other).map fun t => { f t with id := t.id } else w.find? other := by
  have hid : ((·.id == other) ∘ fun t : Task => if t.id = id then { f t with id := t.id } else t)
      = (·.id == other) := by
    funext t
    simp only [Function.comp]
    split <;> rfl
  simp only [find?, modify, List.find?_map, hid]
  cases h : w.tasks.find? (·.id == other) with
  | none => simp
  | some t =>
    have ht : t.id = other := by simpa using List.find?_some h
    by_cases ho : other = id <;> simp [ht, ho]

/-- Adding a task lets it be found and changes nothing else. -/
theorem find?_addTask {w w' : Workflow} {t : Task} (h : w.addTask t = .ok w') (id : Int) :
    w'.find? id = if t.id = id then some t else w.find? id := by
  simp only [addTask] at h
  split at h
  · cases h
  next hnew =>
    cases h
    simp only [find?, List.find?_append]
    by_cases hid : t.id = id
    · have : w.tasks.find? (·.id == id) = none := by
        simp only [List.find?_eq_none, beq_iff_eq]
        exact fun u hu he => hnew (List.mem_map.2 ⟨u, hu, he.trans hid.symm⟩)
      simp [this, hid]
    · have : (t.id == id) = false := by simpa using hid
      simp [List.find?, this, hid]

end Workflow

end SharedLink
