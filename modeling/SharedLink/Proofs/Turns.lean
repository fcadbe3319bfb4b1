import SharedLink.Proofs.Exploration

/-!
# SharedLink.Proofs.Turns

Settling a task with an explicit stack.

A walk and the placements behind it can be done turn by turn instead, without
recursion: the tasks under way are on a stack, each with the parents that have not
been looked at.  One turn either goes up to the next parent that is neither placed nor
under way, or takes the topmost task off the stack and places it.

* `Descent.turn` — one turn;
* `advances_visit` — the turns behind a visit, whatever is below it on the stack;
* `exists_turns` — in a checked workflow the turns come to an end, with what settling gives.
-/

namespace SharedLink

open Timescale

namespace Draft

variable {τ : Type}

/-- A task under way, and those of its parents that have not been looked at. -/
structure Frame where
  id : Int
  parents : List Int

/-- The tasks under way, the last one first, and the tasks placed so far. -/
structure Descent (τ : Type) where
  stack : List Frame
  draft : Draft τ

/-- A parent is passed over if it is placed or under way. -/
def Descent.skips (s : Descent τ) (parent : Int) : Bool :=
  s.draft.order.contains parent || (s.stack.map (·.id)).contains parent

theorem Descent.skips_iff {s : Descent τ} {parent : Int} :
    s.skips parent = true ↔ parent ∈ s.draft.order ∨ parent ∈ s.stack.map (·.id) := by
  simp only [skips, Bool.or_eq_true, List.contains_iff_mem]

variable [Timescale τ]

/-- One turn, unless no task is under way any more. -/
def Descent.turn (w : Workflow) (s : Descent τ) : Option (Except Fault (Descent τ)) :=
  match s.stack with
  | [] => none
  | ⟨id, parents⟩ :: below =>
    match parents.dropWhile s.skips with
    | [] => some do return ⟨below, ← s.draft.place w id⟩
    | parent :: rest => some do
      return ⟨⟨parent, (← w.get parent).parents⟩ :: ⟨id, rest⟩ :: below, s.draft⟩

/-- One turn after the other, none of which fails. -/
def Turns (w : Workflow) : Descent τ → Descent τ → Prop :=
  Relation.TransGen fun s s' => s.turn w = some (.ok s')

variable {w : Workflow} {d d' : Draft τ} {id parent : Int} {rest : List Int} {below : List Frame}

/-! ## single turns -/

/-- A parent that is passed over makes no difference. -/
theorem turn_skip (h : Descent.skips ⟨⟨id, parent :: rest⟩ :: below, d⟩ parent = true) :
    Descent.turn w ⟨⟨id, parent :: rest⟩ :: below, d⟩ = Descent.turn w ⟨⟨id, rest⟩ :: below, d⟩ := by
  unfold Descent.turn
  dsimp only
  rw [List.dropWhile_cons_of_pos h]
  rfl

/-- Any other parent is put on the stack. -/
theorem turn_enter (h : Descent.skips ⟨⟨id, parent :: rest⟩ :: below, d⟩ parent = false)
    (hparent : w.contains parent = true) :
    Descent.turn w ⟨⟨id, parent :: rest⟩ :: below, d⟩ =
      some (.ok ⟨⟨parent, w.parentsOf parent⟩ :: ⟨id, rest⟩ :: below, d⟩) := by
  obtain ⟨t, ht⟩ := Workflow.contains_iff_find?.mp hparent
  unfold Descent.turn
  dsimp only
  rw [List.dropWhile_cons_of_neg (Bool.eq_false_iff.mp h)]
  dsimp only
  rw [Workflow.get_eq_ok_iff.mpr ht, Workflow.parentsOf_eq ht]
  rfl

/-- A task without further parents is placed. -/
theorem turn_place (h : d.place w id = .ok d') :
    Descent.turn w ⟨⟨id, []⟩ :: below, d⟩ = some (.ok ⟨below, d'⟩) := by
  unfold Descent.turn
  dsimp only [List.dropWhile_nil]
  rw [h]
  rfl

/-! ## turns in a row -/

/-- Turns lead from one state to another and place tasks in turn. -/
structure Advances (w : Workflow) (s s' : Descent τ) (new : List Int) : Prop where
  turns : Turns w s s'
  placed : s.draft.placeAll w new = (s'.draft, none)

theorem Advances.trans {a b c : Descent τ} {xs ys : List Int} (hab : Advances w a b xs)
    (hbc : Advances w b c ys) : Advances w a c (xs ++ ys) where
  turns := Relation.TransGen.trans hab.turns hbc.turns
  placed := by rw [placeAll_append hab.placed, hbc.placed]

theorem Advances.skip {s : Descent τ} {new : List Int}
    (hskip : Descent.skips ⟨⟨id, parent :: rest⟩ :: below, d⟩ parent = true)
    (h : Advances w ⟨⟨id, rest⟩ :: below, d⟩ s new) :
    Advances w ⟨⟨id, parent :: rest⟩ :: below, d⟩ s new where
  turns := by
    have hturns := h.turns
    unfold Turns at hturns ⊢
    rw [Relation.TransGen.head'_iff] at hturns ⊢
    rw [turn_skip hskip]
    exact hturns
  placed := h.placed

theorem Advances.enter {s : Descent τ} {new : List Int}
    (hskip : Descent.skips ⟨⟨id, parent :: rest⟩ :: below, d⟩ parent = false)
    (hparent : w.contains parent = true)
    (h : Advances w ⟨⟨parent, w.parentsOf parent⟩ :: ⟨id, rest⟩ :: below, d⟩ s new) :
    Advances w ⟨⟨id, parent :: rest⟩ :: below, d⟩ s new where
  turns := .head (turn_enter hskip hparent) h.turns
  placed := h.placed

theorem Advances.place (h : d.place w id = .ok d') :
    Advances w ⟨⟨id, []⟩ :: below, d⟩ ⟨below, d'⟩ [id] where
  turns := .single (turn_place h)
  placed := placeAll_cons_iff.mpr ⟨d', h, rfl⟩

/-! ## a whole visit -/

/-- The tasks on the stack are those that may not be entered. -/
def OnStack (w : Workflow) (fresh stack : List Int) : Prop :=
  ∀ id, w.contains id = true → (id ∈ stack ↔ id ∉ fresh)

theorem OnStack.enter {fresh stack : List Int} (h : OnStack w fresh stack) (hnodup : fresh.Nodup) :
    OnStack w (fresh.erase parent) (parent :: stack) := by
  intro id hid
  rw [hnodup.mem_erase_iff, List.mem_cons, h id hid]
  tauto

variable [Arithmetic τ]

/-- Turns go through the parents of the topmost task as a walk does, and then place it;
`hvisit` is what they do about a parent that is put on the stack. -/
theorem advances_row (hrec : w.Reciprocal) {fresh : List Int} (hid : w.contains id = true)
    (hstack : OnStack w fresh (id :: below.map (·.id))) {parents : List Int}
    (hvisit : ∀ parent ∈ parents, parent ∈ fresh → ∀ (rest : List Int) (d : Draft τ), Prepared w d →
      ∃ new d', Advances w ⟨⟨parent, w.parentsOf parent⟩ :: ⟨id, rest⟩ :: below, d⟩
          ⟨⟨id, rest⟩ :: below, d'⟩ new ∧
        w.visit (fresh.erase parent) parent ⟨d.order, none⟩ = ⟨d'.order, none⟩)
    (hparents : parents ⊆ w.parentsOf id) (hprepared : Prepared w d) :
    ∃ new d' above, Advances w ⟨⟨id, parents⟩ :: below, d⟩ ⟨below, d'⟩ new ∧
      parents.foldl (w.advance fresh) ⟨d.order, none⟩ = ⟨above, none⟩ ∧
        d'.order = above ++ [id] := by
  induction parents generalizing d with
  | nil =>
      obtain ⟨d', hd'⟩ := hprepared.exists_place hid
      exact ⟨[id], d', d.order, .place hd', rfl, order_place hd'⟩
  | cons parent rest ih =>
      obtain ⟨hparent, hrest⟩ := List.cons_subset.mp hparents
      have htask : w.contains parent = true := hrec.contains_parent hparent
      have hvisit' (p : Int) (hp : p ∈ rest) := hvisit p (List.mem_cons_of_mem parent hp)
      rw [List.foldl_cons]
      cases hskip : Descent.skips ⟨⟨id, parent :: rest⟩ :: below, d⟩ parent with
      | true =>
          obtain ⟨new, d', above, hadvances, hfold⟩ := ih hvisit' hrest hprepared
          refine ⟨new, d', above, hadvances.skip hskip, ?_⟩
          rwa [Workflow.advance_of_skipped htask]
          exact (Descent.skips_iff.mp hskip).imp_right (hstack parent htask).mp
      | false =>
          obtain ⟨hlisted, hway⟩ := not_or.mp (mt Descent.skips_iff.mpr (Bool.eq_false_iff.mp hskip))
          have hfresh : parent ∈ fresh := not_not.mp (mt (hstack parent htask).mpr hway)
          obtain ⟨first, mid, hfirst, hwalk⟩ :=
            hvisit parent List.mem_cons_self hfresh rest d hprepared
          obtain ⟨new, d', above, hadvances, hfold⟩ :=
            ih hvisit' hrest (hprepared.of_placeAll hfirst.placed)
          refine ⟨first ++ new, d', above, (hfirst.enter hskip htask).trans hadvances, ?_⟩
          rwa [Workflow.advance_of_fresh hlisted hfresh, hwalk]

/-- **Turns of a visit**: with its task on top of the stack turns place what the visit lists,
and what is below stays there. -/
theorem advances_visit (hrec : w.Reciprocal) (fresh : List Int) (id : Int) (walk : Walk)
    {below : List Frame} {d : Draft τ} (hprepared : Prepared w d) (hid : w.contains id = true)
    (hnodup : fresh.Nodup) (hstack : OnStack w fresh (id :: below.map (·.id)))
    (hwalk : walk = ⟨d.order, none⟩) :
    ∃ new d', Advances w ⟨⟨id, w.parentsOf id⟩ :: below, d⟩ ⟨below, d'⟩ new ∧
      w.visit fresh id walk = ⟨d'.order, none⟩ := by
  induction fresh, id, walk using Workflow.visit_induction w generalizing below d with
  | step fresh id walk ih =>
      obtain ⟨new, d', above, hadvances, hfold, horder⟩ := advances_row hrec hid hstack
        (fun parent hparent hfresh rest d hprepared =>
          ih ⟨d.order, none⟩ parent hfresh hprepared (hrec.contains_parent hparent)
            (hnodup.erase parent) (hstack.enter hnodup) rfl)
        (List.Subset.refl _) hprepared
      refine ⟨new, d', hadvances, ?_⟩
      rw [Workflow.visit_eq, hwalk, hfold]
      dsimp only
      rw [horder]
      rfl

/-- **Turns of settling**: for a task that is not placed the turns come to an end, having
placed just what settling the task places. -/
theorem exists_turns (hrec : w.Reciprocal) (hprepared : Prepared w d) (hid : w.contains id = true)
    (hnew : id ∉ d.order) :
    ∃ new d', Advances w ⟨[⟨id, w.parentsOf id⟩], d⟩ ⟨[], d'⟩ new ∧
      d.settle w id = (d', none) ∧ w.Adds d.order id new := by
  have hnodup : w.ids.Nodup := w.nodup_ids
  have hstack : OnStack w (w.ids.erase id) (id :: ([] : List Frame).map (·.id)) := by
    intro other hother
    have hmem : other ∈ w.ids := List.contains_iff_mem.mp hother
    simp [hnodup.mem_erase_iff, hmem]
  obtain ⟨new, d', hadvances, hvisit⟩ := advances_visit hrec (w.ids.erase id) id
    ⟨d.order, none⟩ hprepared hid (hnodup.erase id) hstack rfl
  obtain ⟨listed, hwalk, hadds⟩ := Workflow.adds_ancestry hrec hid hnew
  have horder : d'.order = d.order ++ new := order_placeAll hadvances.placed
  have hsame : listed = new := by
    rw [Workflow.ancestry_of_unlisted hid hnew, hvisit, horder, Walk.mk.injEq] at hwalk
    exact (List.append_cancel_left hwalk.1).symm
  rw [hsame] at hwalk hadds
  exact ⟨new, d', hadvances, (settle_eq hwalk).trans hadvances.placed, hadds⟩

end Draft

end SharedLink
