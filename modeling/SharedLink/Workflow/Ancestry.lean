import SharedLink.Workflow.Basic

/-!
# SharedLink.Workflow.Ancestry

The tasks that have to be placed before a task, and that task, parents first.

A walk goes from a task to its parents, in the order in which they are listed,
and lists every task after all of its parents.  It passes over tasks that are
listed already and over those it is in the middle of, which only happens on a
cycle.
-/

namespace SharedLink

/-- How far a walk has come: the tasks listed so far, and the id it got stuck at
because it is no task. -/
structure Walk where
  order : List Int
  stuck : Option Int
deriving DecidableEq, Repr

namespace Workflow

/-- Walk to a task that is neither listed nor under way.  The tasks of `fresh` are
those that are not under way. -/
def visit (w : Workflow) (fresh : List Int) (id : Int) (walk : Walk) : Walk :=
  let parents := ((w.find? id).map (·.parents)).getD []
  let walk := parents.foldl
    (fun walk parent =>
      if walk.stuck.isSome || walk.order.contains parent then walk
      else if _ : parent ∈ fresh then visit w (fresh.erase parent) parent walk
      else if w.contains parent then walk
      else { walk with stuck := some parent })
    walk
  if walk.stuck.isSome then walk else { walk with order := walk.order ++ [id] }
termination_by fresh.length
decreasing_by
  rename_i h
  rw [List.length_erase_of_mem h]
  exact Nat.sub_lt (List.length_pos_of_mem h) Nat.one_pos

/-- Extend a list of tasks by a task, with the ancestors that it does not hold in
front.  Nothing is added for a task that it holds. -/
def ancestry (w : Workflow) (order : List Int) (id : Int) : Walk :=
  if order.contains id then ⟨order, none⟩
  else if w.contains id then w.visit (w.ids.erase id) id ⟨order, none⟩
  else ⟨order, some id⟩

end Workflow

end SharedLink
