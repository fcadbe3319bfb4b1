import SharedLink.Workflow.Basic

/-!
# SharedLink.Workflow.Check

Whether the two ends of every dependency agree.

Every id that a task lists has to be a task that lists it in turn.  The check
goes through the tasks in order, parents before children, and reports the first
end that fails.  That there are no cycles is not checked here
(`SharedLink.Workflow.Graph`).

* `check_eq_ok_iff` — the check passes just if `w.Reciprocal`.
-/

namespace SharedLink

namespace Workflow

/-- A listed parent is a task that lists `t` as its child. -/
def checkParent (w : Workflow) (t : Task) (parent : Int) : Except Fault Unit :=
  match w.find? parent with
  | none => .error (.unknownParent t.id parent)
  | some p =>
    if p.children.contains t.id then .ok () else .error (.oneSidedParent t.id parent)

/-- A listed child is a task that lists `t` as its parent. -/
def checkChild (w : Workflow) (t : Task) (child : Int) : Except Fault Unit :=
  match w.find? child with
  | none => .error (.unknownChild t.id child)
  | some c =>
    if c.parents.contains t.id then .ok () else .error (.oneSidedChild t.id child)

/-- Check every end of every dependency. -/
def check (w : Workflow) : Except Fault Unit :=
  w.tasks.forM fun t => do
    t.parents.forM (w.checkParent t)
    t.children.forM (w.checkChild t)

/-- Every listed id is a task, and is listed on both ends. -/
def Reciprocal (w : Workflow) : Prop :=
  ∀ t ∈ w.tasks,
    (∀ parent ∈ t.parents, ∃ p, w.find? parent = some p ∧ t.id ∈ p.children) ∧
    (∀ child ∈ t.children, ∃ c, w.find? child = some c ∧ t.id ∈ c.parents)

/-! ## what the check decides -/

/-- Going through a list succeeds just if every step does. -/
theorem forM_eq_ok_iff {α ε : Type} (f : α → Except ε Unit) (xs : List α) :
    xs.forM f = .ok () ↔ ∀ x ∈ xs, f x = .ok () := by
  induction xs with
  | nil => simp [pure, Except.pure]
  | cons x xs ih =>
    simp only [List.mem_cons, forall_eq_or_imp, ← ih]
    cases h : f x <;> simp [bind, Except.bind, h]

/-- A parent passes just if it is a task that lists `t`. -/
theorem checkParent_eq_ok_iff {w : Workflow} {t : Task} {parent : Int} :
    w.checkParent t parent = .ok () ↔ ∃ p, w.find? parent = some p ∧ t.id ∈ p.children := by
  simp only [checkParent]
  cases w.find? parent <;> simp

/-- A child passes just if it is a task that lists `t`. -/
theorem checkChild_eq_ok_iff {w : Workflow} {t : Task} {child : Int} :
    w.checkChild t child = .ok () ↔ ∃ c, w.find? child = some c ∧ t.id ∈ c.parents := by
  simp only [checkChild]
  cases w.find? child <;> simp

/-- **Exactness of the check**: it passes just if all ends agree. -/
theorem check_eq_ok_iff {w : Workflow} : w.check = .ok () ↔ w.Reciprocal := by
  have both (t : Task) : (do t.parents.forM (w.checkParent t); t.children.forM (w.checkChild t))
      = .ok () ↔ t.parents.forM (w.checkParent t) = .ok () ∧
        t.children.forM (w.checkChild t) = .ok () := by
    cases t.parents.forM (w.checkParent t) <;> simp [bind, Except.bind]
  simp only [check, Reciprocal, forM_eq_ok_iff, both, checkParent_eq_ok_iff, checkChild_eq_ok_iff]

end Workflow

end SharedLink
