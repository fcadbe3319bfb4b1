import SharedLink.Proofs.Progress

/-!
# SharedLink.Proofs.Exploration

Which tasks a walk lists.

In a checked workflow a walk to a task lists just what the task leads to, going to its
parents and on to theirs as long as they were not listed before.  A parent that the walk
passes over although it is not listed is one that the walk is in the middle of; it is
listed on the way back, so that nothing is left out on a cycle either.

* `Explores` — what one part of a walk adds, and what it leaves for the way back;
* `explores_visit` — a visit lists what can be reached, and leaves only what is under way;
* `adds_ancestry` — a walk lists each task that can be reached once, the task itself last.
-/

namespace SharedLink

namespace Workflow

/-- A task leads to another by going from children to parents, none of them listed. -/
def Leads (w : Workflow) (listed : List Int) : Int → Int → Prop :=
  Relation.ReflTransGen fun child parent => parent ∈ w.parentsOf child ∧ parent ∉ listed

/-- Between two states of a walk from `id` only tasks that it leads to are listed, and of
their parents only those are left unlisted that are under way, outside of `fresh`. -/
structure Explores (w : Workflow) (listed fresh : List Int) (id : Int) (before after : List Int) :
    Prop where
  keeps : before ⊆ after
  leads : ∀ x ∈ after, x ∈ before ∨ w.Leads listed id x
  parents : ∀ x ∈ after, x ∈ before ∨ ∀ parent ∈ w.parentsOf x, parent ∈ after ∨ parent ∉ fresh

variable {w : Workflow} {listed fresh : List Int} {id parent : Int} {a b c : List Int}

theorem Explores.refl : w.Explores listed fresh id a a :=
  ⟨List.Subset.refl a, fun _ => .inl, fun _ => .inl⟩

theorem Explores.trans (hab : w.Explores listed fresh id a b)
    (hbc : w.Explores listed fresh id b c) : w.Explores listed fresh id a c where
  keeps := List.Subset.trans hab.keeps hbc.keeps
  leads x hx := by
    cases hbc.leads x hx with
    | inl hb => exact hab.leads x hb
    | inr hleads => exact .inr hleads
  parents x hx := by
    cases hbc.parents x hx with
    | inr hparents => exact .inr hparents
    | inl hb =>
        cases hab.parents x hb with
        | inl ha => exact .inl ha
        | inr hparents =>
            exact .inr fun p hp => (hparents p hp).imp_left fun hmem => hbc.keeps hmem

/-- What a visit to a parent explores, the child explores by it. -/
theorem Explores.child (h : w.Explores listed (fresh.erase parent) parent a b)
    (hparent : parent ∈ w.parentsOf id) (hnew : parent ∉ listed) (hdone : parent ∈ b) :
    w.Explores listed fresh id a b where
  keeps := h.keeps
  leads x hx := (h.leads x hx).imp_right fun hleads => .head ⟨hparent, hnew⟩ hleads
  parents x hx := by
    refine (h.parents x hx).imp_right fun hparents p hp => ?_
    by_cases heq : p = parent
    · rw [heq]
      exact .inl hdone
    · exact (hparents p hp).imp_right fun hout hmem => hout ((List.mem_erase_of_ne heq).mpr hmem)

/-- A task is listed behind its parents. -/
theorem Explores.snoc (h : w.Explores listed fresh id a b)
    (hparents : ∀ parent ∈ w.parentsOf id, parent ∈ b ∨ parent ∉ fresh) :
    w.Explores listed fresh id a (b ++ [id]) where
  keeps := List.Subset.trans h.keeps (List.subset_append_left b [id])
  leads x hx := by
    cases List.mem_append.mp hx with
    | inl hb => exact h.leads x hb
    | inr hid =>
        rw [List.mem_singleton.mp hid]
        exact .inr .refl
  parents x hx := by
    have hall (hx : ∀ p ∈ w.parentsOf x, p ∈ b ∨ p ∉ fresh) (p : Int) (hp : p ∈ w.parentsOf x) :
        p ∈ b ++ [id] ∨ p ∉ fresh := (hx p hp).imp_left fun hmem => List.mem_append_left _ hmem
    cases List.mem_append.mp hx with
    | inl hb => exact (h.parents x hb).imp_right hall
    | inr hid =>
        rw [List.mem_singleton.mp hid] at hall ⊢
        exact .inr (hall hparents)

/-! ## a whole walk -/

/-- What holds of every single parent of a task holds of all its parents in a row. -/
theorem explores_foldl {f : Walk → Int → Walk} {ps : List Int}
    (step : ∀ walk, walk.stuck = none → listed ⊆ walk.order → ∀ p ∈ ps,
      (f walk p).stuck = none ∧ w.Explores listed fresh id walk.order (f walk p).order ∧
        (p ∈ (f walk p).order ∨ p ∉ fresh))
    {walk : Walk} (hstuck : walk.stuck = none) (hlisted : listed ⊆ walk.order) :
    (ps.foldl f walk).stuck = none ∧
      w.Explores listed fresh id walk.order (ps.foldl f walk).order ∧
      ∀ p ∈ ps, p ∈ (ps.foldl f walk).order ∨ p ∉ fresh := by
  induction ps generalizing walk with
  | nil => exact ⟨hstuck, .refl, fun p hp => absurd hp List.not_mem_nil⟩
  | cons p ps ih =>
      obtain ⟨hfree, hone, hdone⟩ := step walk hstuck hlisted p List.mem_cons_self
      obtain ⟨hfree, hrest, hall⟩ := ih
        (fun walk hstuck hlisted q hq => step walk hstuck hlisted q (List.mem_cons_of_mem p hq))
        hfree (List.Subset.trans hlisted hone.keeps)
      refine ⟨hfree, hone.trans hrest, List.forall_mem_cons.mpr ⟨?_, hall⟩⟩
      exact hdone.imp_left fun hmem => hrest.keeps hmem

/-- One parent is listed in the end unless it is under way; `hvisit` is what a visit to it gives. -/
theorem explores_advance {order : List Int} (hlisted : listed ⊆ order)
    (htask : w.contains parent = true) (hparent : parent ∈ w.parentsOf id)
    (hvisit : parent ∈ fresh →
      w.Explores listed (fresh.erase parent) parent order
          (w.visit (fresh.erase parent) parent ⟨order, none⟩).order ∧
        parent ∈ (w.visit (fresh.erase parent) parent ⟨order, none⟩).order) :
    w.Explores listed fresh id order (w.advance fresh ⟨order, none⟩ parent).order ∧
      (parent ∈ (w.advance fresh ⟨order, none⟩ parent).order ∨ parent ∉ fresh) := by
  by_cases hskip : parent ∈ order ∨ parent ∉ fresh
  · rw [advance_of_skipped htask hskip]
    exact ⟨.refl, hskip⟩
  · obtain ⟨hmem, hfresh⟩ := not_or.mp hskip
    have hfresh : parent ∈ fresh := not_not.mp hfresh
    obtain ⟨hexplores, hdone⟩ := hvisit hfresh
    rw [advance_of_fresh hmem hfresh]
    exact ⟨hexplores.child hparent (fun h => hmem (hlisted h)) hdone, .inl hdone⟩

/-- **What a visit lists**: what the task leads to, and the parents of it that are not under way;
the task itself comes last. -/
theorem explores_visit (hrec : w.Reciprocal) (fresh : List Int) (id : Int) (walk : Walk)
    (hstuck : walk.stuck = none) (hlisted : listed ⊆ walk.order) :
    w.Explores listed fresh id walk.order (w.visit fresh id walk).order ∧
      (w.visit fresh id walk).order.getLast? = some id := by
  induction fresh, id, walk using visit_induction w with
  | step fresh id walk ih =>
      have step (walk : Walk) (hstuck : walk.stuck = none) (hlisted : listed ⊆ walk.order)
          (p : Int) (hp : p ∈ w.parentsOf id) :
          (w.advance fresh walk p).stuck = none ∧
            w.Explores listed fresh id walk.order (w.advance fresh walk p).order ∧
            (p ∈ (w.advance fresh walk p).order ∨ p ∉ fresh) := by
        obtain ⟨order, stuck⟩ := walk
        obtain rfl : stuck = none := hstuck
        have htask : w.contains p = true := hrec.contains_parent hp
        refine ⟨stuck_advance htask rfl fun _ => stuck_visit hrec _ p _ rfl, ?_⟩
        exact explores_advance hlisted htask hp fun hfresh =>
          (ih ⟨order, none⟩ p hfresh rfl hlisted).imp_right List.mem_of_getLast?
      obtain ⟨hfree, hexplores, hparents⟩ := explores_foldl step hstuck hlisted
      rw [visit_eq]
      dsimp only
      rw [hfree, Option.isSome_none, if_neg Bool.false_ne_true]
      exact ⟨hexplores.snoc hparents, List.getLast?_concat⟩

/-- A walk to a task that is not listed is a visit. -/
theorem ancestry_of_unlisted (hid : w.contains id = true) (hnew : id ∉ listed) :
    w.ancestry listed id = w.visit (w.ids.erase id) id ⟨listed, none⟩ := by
  unfold ancestry
  rw [if_neg fun h => hnew (List.contains_iff_mem.mp h), if_pos hid]

/-- What a walk adds for a task that is not listed: each task that it leads to, once, and
the task itself last. -/
structure Adds (w : Workflow) (listed : List Int) (id : Int) (new : List Int) : Prop where
  nodup : new.Nodup
  mem_iff : ∀ x, x ∈ new ↔ w.Leads listed id x
  last : new.getLast? = some id

/-- **What a walk lists**: all that the task leads to, as all tasks but the first may be entered. -/
theorem adds_ancestry (hrec : w.Reciprocal) (hid : w.contains id = true) (hnew : id ∉ listed) :
    ∃ new, w.ancestry listed id = ⟨listed ++ new, none⟩ ∧ w.Adds listed id new := by
  obtain ⟨new, horder, hfollows, -⟩ := w.follows_ancestry listed id
  obtain ⟨hnodup, hunlisted⟩ := new_of_follows hfollows
  have hwalk : w.ancestry listed id = ⟨listed ++ new, none⟩ := by
    rw [← horder, ← stuck_ancestry hrec listed hid]
  have hvisit : w.visit (w.ids.erase id) id ⟨listed, none⟩ = ⟨listed ++ new, none⟩ := by
    rw [← hwalk, ancestry_of_unlisted hid hnew]
  obtain ⟨hexplores, hlast⟩ := explores_visit hrec (w.ids.erase id) id ⟨listed, none⟩ rfl
    (List.Subset.refl listed)
  rw [hvisit] at hexplores hlast
  have hmem : id ∈ new := by
    cases List.mem_append.mp (List.mem_of_getLast? hlast) with
    | inl h => exact absurd h hnew
    | inr h => exact h
  refine ⟨new, hwalk, hnodup, fun x => ⟨fun hx => ?_, fun hx => ?_⟩, ?_⟩
  · exact (hexplores.leads x (List.mem_append_right _ hx)).resolve_left (hunlisted x hx)
  · induction hx with
    | refl => exact hmem
    | @tail child parent _ hlink ih =>
        obtain ⟨hparent, hout⟩ := hlink
        have hclosed := (hexplores.parents child (List.mem_append_right _ ih)).resolve_left
          (hunlisted child ih) parent hparent
        cases hclosed with
        | inl h => exact (List.mem_append.mp h).resolve_left hout
        | inr hway =>
            by_cases heq : parent = id
            · rw [heq]
              exact hmem
            · have htask := List.contains_iff_mem.mp (hrec.contains_parent hparent)
              exact absurd ((List.mem_erase_of_ne heq).mpr htask) hway
  · rwa [List.getLast?_append_of_ne_nil _ (List.ne_nil_of_mem hmem)] at hlast

end Workflow

end SharedLink
