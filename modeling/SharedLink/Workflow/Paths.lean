import SharedLink.Workflow.Basic

/-!
# SharedLink.Workflow.Paths

All paths from a root to a leaf.

Children are followed in the order in which they are listed.  A path does not
enter a task twice, so a cyclic workflow has finitely many paths as well; a path
whose children are all on it already leads nowhere and is not counted.
-/

namespace SharedLink

namespace Workflow

/-- The paths from a task on that enter only tasks of `fresh`, none of them twice.
A listed child that is no task is an error once it is reached. -/
def pathsFrom (w : Workflow) (fresh : List Int) (id : Int) : Except Fault (List (List Int)) :=
  if _ : id ∈ fresh then do
    let t ← w.get id
    if t.children.isEmpty then return [[id]]
    let below ← t.children.mapM fun child => pathsFrom w (fresh.erase id) child
    return below.flatten.map (id :: ·)
  else if w.contains id then return []
  else throw (.missing id)
termination_by fresh.length
decreasing_by
  rename_i h
  rw [List.length_erase_of_mem h]
  exact Nat.sub_lt (List.length_pos_of_mem h) Nat.one_pos

/-- All paths from a root to a leaf, root by root. -/
def paths (w : Workflow) : Except Fault (List (List Int)) := do
  let perRoot ← w.roots.mapM fun root => w.pathsFrom w.ids root.id
  return perRoot.flatten

end Workflow

end SharedLink
