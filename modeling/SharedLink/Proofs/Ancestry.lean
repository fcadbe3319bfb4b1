import Mathlib.Logic.Relation
import SharedLink.Workflow.Ancestry

/-!
# SharedLink.Proofs.Ancestry

In what order a walk lists tasks.

Whatever was listed before, a walk only adds tasks that were not, and it adds a
task after all of its parents but those that it is in the middle of.  Such a
parent was entered before the task, on the way up to it, so that the task is its
ancestor and the dependency lies on a cycle.

`Follows` says this of a list of added tasks, one task after the other; whatever
is kept by adding a task in this way is kept by all walks.

* `follows_visit` — what a walk adds follows what was listed;
* `follows_ancestry` — so do a task and its ancestors, and the task is listed in the end.
-/

namespace SharedLink

namespace Workflow

/-- The parents that are listed for an id, none if it is no task. -/
def parentsOf (w : Workflow) (id : Int) : List Int := ((w.find? id).map (·.parents)).getD []

theorem parentsOf_eq {w : Workflow} {id : Int} {t : Task} (h : w.find? id = some t) :
    w.parentsOf id = t.parents := by
  unfold parentsOf
  rw [h]
  rfl

/-- Only tasks have parents. -/
theorem mem_ids_of_parentsOf {w : Workflow} {parent id : Int} (h : parent ∈ w.parentsOf id) :
    id ∈ w.ids := by
  unfold parentsOf at h
  cases ht : w.find? id with
  | none =>
      rw [ht] at h
      cases h
  | some t =>
      rw [← List.contains_iff_mem]
      exact contains_iff_find?.mpr ⟨t, ht⟩

/-- A task is an ancestor of all that is reached from it by going from parents to
children, once or more. -/
def Ancestor (w : Workflow) : Int → Int → Prop :=
  Relation.TransGen fun parent child => parent ∈ w.parentsOf child

/-- A task can be listed next: it is not listed yet, and its parents are, except for
those that it is an ancestor of. -/
structure Next (w : Workflow) (order : List Int) (id : Int) : Prop where
  task : w.contains id = true
  unlisted : id ∉ order
  parents : ∀ parent ∈ w.parentsOf id, parent ∈ order ∨ w.Ancestor id parent

/-- Tasks can be listed in turn after those of `order`. -/
def Follows (w : Workflow) : (order new : List Int) → Prop
  | _, [] => True
  | order, id :: rest => w.Next order id ∧ Follows w (order ++ [id]) rest

theorem follows_append {w : Workflow} {order xs ys : List Int} :
    w.Follows order (xs ++ ys) ↔ w.Follows order xs ∧ w.Follows (order ++ xs) ys := by
  induction xs generalizing order with
  | nil => simp [Follows]
  | cons x xs ih =>
      rw [List.cons_append, Follows, Follows, ih, List.append_assoc, List.singleton_append,
        and_assoc]

theorem follows_singleton {w : Workflow} {order : List Int} {id : Int} (h : w.Next order id) :
    w.Follows order [id] := ⟨h, trivial⟩

/-- A task among others that follow could be listed next after those before it. -/
theorem next_of_follows {w : Workflow} {order xs ys : List Int} {id : Int}
    (h : w.Follows order (xs ++ id :: ys)) : w.Next (order ++ xs) id :=
  (follows_append.mp h).2.1

theorem contains_of_follows {w : Workflow} {order new : List Int} (h : w.Follows order new) :
    ∀ id ∈ new, w.contains id = true := by
  intro id hid
  obtain ⟨xs, ys, rfl⟩ := List.append_of_mem hid
  exact (next_of_follows h).task

/-- What is listed behind tasks that follow one another is new, and each of it once. -/
theorem new_of_follows {w : Workflow} {order new : List Int} (h : w.Follows order new) :
    new.Nodup ∧ ∀ id ∈ new, id ∉ order := by
  induction new generalizing order with
  | nil => simp
  | cons id rest ih =>
      obtain ⟨hnext, hrest⟩ := h
      obtain ⟨hnodup, hnew⟩ := ih hrest
      have hid : id ∉ rest := fun hmem => hnew id hmem (by simp)
      refine ⟨List.nodup_cons.mpr ⟨hid, hnodup⟩, List.forall_mem_cons.mpr ⟨hnext.unlisted, ?_⟩⟩
      exact fun other hother hmem => hnew other hother (List.mem_append_left _ hmem)

/-- No task is listed twice. -/
theorem nodup_of_follows {w : Workflow} {order new : List Int} (hnodup : order.Nodup)
    (h : w.Follows order new) : (order ++ new).Nodup := by
  obtain ⟨hnew, hout⟩ := new_of_follows h
  refine List.nodup_append.mpr ⟨hnodup, hnew, fun id hid other hother heq => ?_⟩
  rw [heq] at hid
  exact hout other hother hid

/-! ## one parent -/

/-- What a walk does about one parent of a task. -/
def advance (w : Workflow) (fresh : List Int) (walk : Walk) (parent : Int) : Walk :=
  if walk.stuck.isSome || walk.order.contains parent then walk
  else if parent ∈ fresh then w.visit (fresh.erase parent) parent walk
  else if w.contains parent then walk
  else { walk with stuck := some parent }

/-- A walk passes over a task that is listed or under way. -/
theorem advance_of_skipped {w : Workflow} {fresh order : List Int} {parent : Int}
    (hparent : w.contains parent = true) (h : parent ∈ order ∨ parent ∉ fresh) :
    w.advance fresh ⟨order, none⟩ parent = ⟨order, none⟩ := by
  unfold advance
  cases h with
  | inl hlisted => simp [hlisted]
  | inr hway => simp [hway, hparent]

/-- It visits any other. -/
theorem advance_of_fresh {w : Workflow} {fresh order : List Int} {parent : Int}
    (hlisted : parent ∉ order) (hfresh : parent ∈ fresh) :
    w.advance fresh ⟨order, none⟩ parent =
      w.visit (fresh.erase parent) parent ⟨order, none⟩ := by
  unfold advance
  simp [hlisted, hfresh]

/-- A visit goes through the parents and then lists the task. -/
theorem visit_eq (w : Workflow) (fresh : List Int) (id : Int) (walk : Walk) :
    w.visit fresh id walk =
      let above := (w.parentsOf id).foldl (w.advance fresh) walk
      if above.stuck.isSome then above else { above with order := above.order ++ [id] } := by
  rw [visit]
  rfl

/-- From one state of a walk to another the list grows by tasks that follow it, of
those that may be entered, and a walk that is stuck stays stuck. -/
structure Grows (w : Workflow) (enter : Int → Prop) (walk walk' : Walk) (new : List Int) :
    Prop where
  order : walk'.order = walk.order ++ new
  follows : w.Follows walk.order new
  enter : ∀ id ∈ new, enter id
  stuck : walk'.stuck = none → walk.stuck = none

theorem Grows.rfl {w : Workflow} {enter : Int → Prop} {walk : Walk} :
    w.Grows enter walk walk [] :=
  ⟨(List.append_nil _).symm, trivial, fun _ h => absurd h List.not_mem_nil, id⟩

theorem Grows.trans {w : Workflow} {enter : Int → Prop} {a b c : Walk} {xs ys : List Int}
    (hab : w.Grows enter a b xs) (hbc : w.Grows enter b c ys) : w.Grows enter a c (xs ++ ys) where
  order := by rw [hbc.order, hab.order, List.append_assoc]
  follows := by
    rw [follows_append]
    refine ⟨hab.follows, ?_⟩
    rw [← hab.order]
    exact hbc.follows
  enter id hid := by
    cases List.mem_append.mp hid with
    | inl h => exact hab.enter id h
    | inr h => exact hbc.enter id h
  stuck h := hab.stuck (hbc.stuck h)

/-! ## a whole walk -/

/-- The tasks that a walk is in the middle of are those outside of `fresh`; `id` is
the last of them, so it is the ancestor of all others. -/
def Underway (w : Workflow) (fresh : List Int) (id : Int) : Prop :=
  id ∉ fresh ∧ ∀ other, w.contains other = true → other ∉ fresh → other = id ∨ w.Ancestor id other

/-- Entering a parent puts it under way. -/
theorem Underway.enter {w : Workflow} {fresh : List Int} {id parent : Int}
    (h : w.Underway fresh id) (hnodup : fresh.Nodup) (hp : parent ∈ w.parentsOf id) :
    w.Underway (fresh.erase parent) parent := by
  refine ⟨hnodup.not_mem_erase, fun other hother hfresh => ?_⟩
  by_cases he : other = parent
  · exact .inl he
  · have hother' : other ∉ fresh := fun hin => hfresh ((List.mem_erase_of_ne he).mpr hin)
    right
    cases h.2 other hother hother' with
    | inl heq => rw [heq]; exact .single hp
    | inr hanc => exact .head hp hanc

/-- A visit can be followed by induction on the tasks that may still be entered. -/
theorem visit_induction (w : Workflow) {motive : List Int → Int → Walk → Prop}
    (step : ∀ fresh id walk,
      (∀ walk parent, parent ∈ fresh → motive (fresh.erase parent) parent walk) →
        motive fresh id walk)
    (fresh : List Int) (id : Int) (walk : Walk) : motive fresh id walk :=
  visit.induct w motive (fun fresh id walk _ ih => step fresh id walk ih)
    (fun fresh id walk _ ih => step fresh id walk ih) fresh id walk

/-- What holds of every single parent of a task holds of all its parents in a row. -/
theorem grows_foldl {w : Workflow} {enter : Int → Prop} {f : Walk → Int → Walk} {id : Int}
    {ps : List Int} (walk : Walk)
    (step : ∀ walk, ∀ p ∈ ps, ∃ new, w.Grows enter walk (f walk p) new ∧
      ((f walk p).stuck = none → p ∈ (f walk p).order ∨ w.Ancestor id p)) :
    ∃ new, w.Grows enter walk (ps.foldl f walk) new ∧
      ((ps.foldl f walk).stuck = none →
        ∀ p ∈ ps, p ∈ (ps.foldl f walk).order ∨ w.Ancestor id p) := by
  induction ps generalizing walk with
  | nil => exact ⟨[], .rfl, fun _ p hp => absurd hp List.not_mem_nil⟩
  | cons p ps ih =>
      obtain ⟨xs, hxs, hp⟩ := step walk p List.mem_cons_self
      obtain ⟨ys, hys, hps⟩ := ih (f walk p) fun walk q hq =>
        step walk q (List.mem_cons_of_mem p hq)
      rw [List.foldl_cons]
      refine ⟨xs ++ ys, hxs.trans hys, fun hstuck q hq => ?_⟩
      cases List.mem_cons.mp hq with
      | inl heq =>
          rw [heq]
          cases hp (hys.stuck hstuck) with
          | inl hmem =>
              left
              rw [hys.order]
              exact List.mem_append_left ys hmem
          | inr hanc => exact .inr hanc
      | inr hq => exact hps hstuck q hq

/-- One parent of a task under way is listed already, entered, under way as well, or
no task; `hvisit` is what a visit to it gives. -/
theorem grows_advance {w : Workflow} {fresh : List Int} {id p : Int} {walk : Walk}
    (hway : w.Underway fresh id) (hp : p ∈ w.parentsOf id)
    (hvisit : p ∈ fresh → p ∉ walk.order → ∃ new,
      w.Grows (fun other => other = p ∨ other ∈ fresh.erase p) walk
        (w.visit (fresh.erase p) p walk) new ∧
      ((w.visit (fresh.erase p) p walk).stuck = none →
        p ∈ (w.visit (fresh.erase p) p walk).order)) :
    ∃ new, w.Grows (· ∈ fresh) walk (w.advance fresh walk p) new ∧
      ((w.advance fresh walk p).stuck = none →
        p ∈ (w.advance fresh walk p).order ∨ w.Ancestor id p) := by
  unfold advance
  split
  · next hskip =>
      refine ⟨[], .rfl, fun hstuck => .inl ?_⟩
      simpa [hstuck] using hskip
  · next hskip =>
      have hlisted : p ∉ walk.order := by
        simp only [Bool.or_eq_true, not_or, List.contains_iff_mem] at hskip
        exact hskip.2
      split
      · next hfresh =>
          obtain ⟨new, hgrows, hdone⟩ := hvisit hfresh hlisted
          refine ⟨new, ⟨hgrows.order, hgrows.follows, fun other h => ?_, hgrows.stuck⟩,
            fun hstuck => .inl (hdone hstuck)⟩
          cases hgrows.enter other h with
          | inl heq => rw [heq]; exact hfresh
          | inr h => exact List.mem_of_mem_erase h
      · next hfresh =>
          split
          · next htask =>
              refine ⟨[], .rfl, fun _ => .inr ?_⟩
              cases hway.2 p htask hfresh with
              | inl heq => rw [heq] at hp ⊢; exact .single hp
              | inr hanc => exact hanc
          · exact ⟨[], ⟨(List.append_nil _).symm, trivial, fun _ h => absurd h List.not_mem_nil,
              fun h => by cases h⟩, fun h => by cases h⟩

/-- **The order of a walk**: what a visit adds follows what was listed, is the task
itself or comes from those that may be entered, and includes the task. -/
theorem follows_visit (w : Workflow) (fresh : List Int) (id : Int) (walk : Walk)
    (hid : w.contains id = true) (hnew : id ∉ walk.order) (hnodup : fresh.Nodup)
    (htasks : ∀ other ∈ fresh, w.contains other = true) (hway : w.Underway fresh id) :
    ∃ new, w.Grows (fun other => other = id ∨ other ∈ fresh) walk (w.visit fresh id walk) new ∧
      ((w.visit fresh id walk).stuck = none → id ∈ (w.visit fresh id walk).order) := by
  induction fresh, id, walk using visit_induction w with
  | step fresh id walk ih =>
      have step (walk : Walk) (p : Int) (hp : p ∈ w.parentsOf id) :
          ∃ new, w.Grows (· ∈ fresh) walk (w.advance fresh walk p) new ∧
            ((w.advance fresh walk p).stuck = none →
              p ∈ (w.advance fresh walk p).order ∨ w.Ancestor id p) :=
        grows_advance hway hp fun hfresh hlisted =>
          ih walk p hfresh (htasks p hfresh) hlisted (hnodup.erase p)
            (fun other h => htasks other (List.mem_of_mem_erase h)) (hway.enter hnodup hp)
      obtain ⟨new, hgrows, hparents⟩ := grows_foldl walk step
      have hgrows' : w.Grows (fun other => other = id ∨ other ∈ fresh) walk _ new :=
        ⟨hgrows.order, hgrows.follows, fun other h => .inr (hgrows.enter other h), hgrows.stuck⟩
      rw [visit_eq]
      dsimp only
      split
      · next hstuck =>
          refine ⟨new, hgrows', fun h => ?_⟩
          rw [h] at hstuck
          cases hstuck
      · next hstuck =>
          have hfree : ((w.parentsOf id).foldl (w.advance fresh) walk).stuck = none :=
            Option.not_isSome_iff_eq_none.mp hstuck
          have hlast : w.Next ((w.parentsOf id).foldl (w.advance fresh) walk).order id := by
            refine ⟨hid, fun hmem => ?_, hparents hfree⟩
            rw [hgrows.order] at hmem
            cases List.mem_append.mp hmem with
            | inl h => exact hnew h
            | inr h => exact hway.1 (hgrows.enter id h)
          refine ⟨new ++ [id], hgrows'.trans ⟨rfl, follows_singleton hlast, ?_, fun h => h⟩, ?_⟩
          · exact fun other h => .inl (List.mem_singleton.mp h)
          · exact fun _ => List.mem_append_right _ (List.mem_singleton_self id)

/-- **The order of an ancestry**: what is added for a task follows what was listed,
and unless the walk is stuck the task is listed in the end. -/
theorem follows_ancestry (w : Workflow) (order : List Int) (id : Int) :
    ∃ new, (w.ancestry order id).order = order ++ new ∧ w.Follows order new ∧
      ((w.ancestry order id).stuck = none → id ∈ (w.ancestry order id).order) := by
  unfold ancestry
  split
  · next hlisted =>
      exact ⟨[], (List.append_nil _).symm, trivial, fun _ => List.contains_iff_mem.mp hlisted⟩
  · next hlisted =>
      split
      · next htask =>
          have hnodup : w.ids.Nodup := w.nodup_ids
          have hway : w.Underway (w.ids.erase id) id := by
            refine ⟨hnodup.not_mem_erase, fun other hother hfresh => .inl ?_⟩
            by_cases he : other = id
            · exact he
            · exact absurd ((List.mem_erase_of_ne he).mpr (List.contains_iff_mem.mp hother)) hfresh
          obtain ⟨new, hgrows, hdone⟩ := w.follows_visit (w.ids.erase id) id ⟨order, none⟩ htask
            (fun h => hlisted (List.contains_iff_mem.mpr h)) (hnodup.erase id)
            (fun other h => List.contains_iff_mem.mpr (List.mem_of_mem_erase h)) hway
          exact ⟨new, hgrows.order, hgrows.follows, hdone⟩
      · refine ⟨[], (List.append_nil _).symm, trivial, fun h => ?_⟩
        cases h

end Workflow

end SharedLink
