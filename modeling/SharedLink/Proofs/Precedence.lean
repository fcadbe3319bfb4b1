import SharedLink.Proofs.Cycles
import SharedLink.Proofs.Doubles
import SharedLink.Proofs.Entries
import SharedLink.Proofs.Gaps

/-!
# SharedLink.Proofs.Precedence

No task is sent before its parents have been received.

A task is placed when all of its parents have been, except for those that it is an
ancestor of, and its input is sent no earlier than one delay after each of them.
Nothing is assumed of the additions but that no slot is NaN, so this holds of
exact times and of doubles alike.

* `Plan.Precedes` — placed before, and received one delay before the other is sent;
* `Reaches.pairwise_awaits` — the invariant, over any two placements;
* `precedes_of_build` — parents precede their children in every plan, all of them
  in an acyclic workflow.
-/

namespace SharedLink

open Timescale

variable {τ : Type} [Timescale τ]

namespace Draft

/-- A task that is placed after one of its parents is not sent before that has been
received and the delay has passed. -/
def Awaits (w : Workflow) (earlier later : Int × Slot τ) : Prop :=
  earlier.1 ∈ w.parentsOf later.1 → earlier.2.receiveEnd + readyDelay ≤ later.2.sendStart

omit [Timescale τ] in
/-- The end of a placed task is that of its slot. -/
theorem endOf?_of_mem {d : Draft τ} (hnodup : d.order.Nodup) {id : Int} {slot : Slot τ}
    (h : (id, slot) ∈ d.placed) : d.endOf? id = some slot.receiveEnd := by
  unfold endOf?
  rw [slotOf?_of_mem hnodup h, Option.map_some]

/-- If no slot is NaN, neither is any time that a task has to wait for. -/
theorem isNumber_endOf? [Ordered τ] {d : Draft τ} (hnum : ∀ entry ∈ d.placed, entry.2.IsNumeric)
    (id : Int) : IsNumber ((d.endOf? id).getD 0 + readyDelay) := by
  apply Ordered.isNumber_add_one
  unfold endOf?
  cases h : d.slotOf? id with
  | none => exact Ordered.isNumber_zero
  | some slot => exact (hnum (id, slot) (mem_of_slotOf? h)).2

/-- One placement: the task is not sent before it is ready. -/
theorem Places.readyAt_le [Ordered τ] {w : Workflow} {d d' : Draft τ} {t : Task} {cost : Cost τ}
    {slot : Slot τ} {sent : Timeline τ} (h : Places w d t cost slot sent d')
    (hnum : IsNumber slot.sendStart) : readyAt d.endOf? t ≤ slot.sendStart := by
  rw [h.sendStart] at hnum ⊢
  exact Timeline.le_earliestGap (Timeline.isNumber_of_earliestGap hnum)

/-- The new task awaits each of its parents that have been placed, as their ends are among the
times that it is ready after. -/
theorem Places.awaits [Ordered τ] {w : Workflow} {d d' : Draft τ} {t : Task} {cost : Cost τ}
    {slot : Slot τ} {sent : Timeline τ} (h : Places w d t cost slot sent d')
    (hnodup : d.order.Nodup) (hnum : ∀ entry ∈ d'.placed, entry.2.IsNumeric) :
    ∀ entry ∈ d.placed, Awaits w entry (t.id, slot) := by
  intro ⟨parent, pslot⟩ hentry hparent
  have hslot : slot.IsNumeric :=
    hnum (t.id, slot) (h.placed ▸ List.mem_append_right _ (List.mem_singleton_self _))
  have hplaced (entry : Int × Slot τ) (he : entry ∈ d.placed) : entry.2.IsNumeric :=
    hnum entry (h.placed ▸ List.mem_append_left _ he)
  have hlisted : parent ∈ t.parents := by
    rw [← Workflow.parentsOf_eq h.found]
    exact hparent
  have hready : pslot.receiveEnd + readyDelay ≤ readyAt d.endOf? t := by
    refine le_largest 0 (fun time htime => ?_) (List.mem_map.mpr ⟨parent, hlisted, ?_⟩)
    · obtain ⟨other, -, rfl⟩ := List.mem_map.mp htime
      exact isNumber_endOf? hplaced other
    · rw [endOf?_of_mem hnodup hentry, Option.getD_some]
  exact Ordered.le_trans hready (h.readyAt_le hslot.1)

/-- **Waiting for parents**: of any two placed tasks the later one awaits the earlier. -/
theorem Reaches.pairwise_awaits [Ordered τ] {w : Workflow} {first d : Draft τ}
    (h : Reaches w first d) (hempty : first.placed = [])
    (hnum : ∀ entry ∈ d.placed, entry.2.IsNumeric) : d.placed.Pairwise (Awaits w) := by
  induction h with
  | refl =>
      rw [hempty]
      exact .nil
  | @place d d' id before next last ih =>
      obtain ⟨t, cost, slot, sent, -, hplaces⟩ := places_of_place last
      have hnodup : d.order.Nodup := before.nodup_order hempty
      have hbefore : ∀ entry ∈ d.placed, entry.2.IsNumeric := fun entry he =>
        hnum entry (hplaces.placed ▸ List.mem_append_left _ he)
      rw [hplaces.placed, List.pairwise_append]
      refine ⟨ih hbefore, List.pairwise_singleton _ _, fun entry he other hother => ?_⟩
      rw [List.mem_singleton.mp hother]
      exact hplaces.awaits hnodup hnum entry he

end Draft

namespace Plan

/-- One task precedes another: it is placed before it, and the other is not sent
before it has been received and the delay has passed. -/
structure Precedes (p : Plan τ) (parent child : Int) : Prop where
  placed : ∃ before behind, p.order = before ++ child :: behind ∧ parent ∈ before
  received : ∃ pslot prank slot rank, p.find? parent = some (pslot, prank) ∧
    p.find? child = some (slot, rank) ∧ pslot.receiveEnd + Draft.readyDelay ≤ slot.sendStart

/-- A parent precedes its child, unless the child is an ancestor of it. -/
theorem Planned.precedes [Ordered τ] {w : Workflow} {hosts : List Host} {padding : Quantity}
    {platform : Platform τ} {first last : Draft τ} {p : Plan τ}
    (h : Planned w hosts padding platform first last p) (hnum : p.HasNumericSlots)
    {child parent : Int} (hparent : parent ∈ w.parentsOf child)
    (hcycle : ¬w.Ancestor child parent) : p.Precedes parent child := by
  have hchild : child ∈ p.order := by
    rw [h.perm_order.mem_iff]
    exact Workflow.mem_ids_of_parentsOf hparent
  obtain ⟨before, behind, horder⟩ := List.append_of_mem hchild
  have hnext : w.Next ([] ++ before) child := by
    have hfollows := h.follows
    rw [horder] at hfollows
    exact Workflow.next_of_follows hfollows
  have hbefore : parent ∈ before := by
    cases hnext.parents parent hparent with
    | inl hmem => exact hmem
    | inr hanc => exact absurd hanc hcycle
  refine ⟨⟨before, behind, horder, hbefore⟩, ?_⟩
  have hplaced : last.placed.map (·.1) = before ++ child :: behind := by
    rw [← horder, h.order]
    rfl
  obtain ⟨xs, ys, hsplit, rfl, hys⟩ := List.map_eq_append_iff.mp hplaced
  obtain ⟨⟨_, slot⟩, zs, rfl, rfl, -⟩ := List.map_eq_cons_iff.mp hys
  obtain ⟨⟨_, pslot⟩, hmem, rfl⟩ := List.mem_map.mp hbefore
  have hawaits := h.reaches.pairwise_awaits h.starts.placed fun entry he =>
    hnum entry (h.perm_entries.mem_iff.mpr he)
  rw [hsplit] at hawaits
  have hpair := (List.pairwise_append.mp hawaits).2.2 _ hmem _ List.mem_cons_self
  obtain ⟨prank, hp⟩ := h.mem_placed_iff.mp (hsplit ▸ List.mem_append_left _ hmem)
  obtain ⟨rank, hc⟩ := h.mem_placed_iff.mp (hsplit ▸ List.mem_append_right xs List.mem_cons_self)
  exact ⟨pslot, prank, slot, rank, hp, hc, hpair hparent⟩

/-- **Precedence**: in every plan whose slots are not NaN, parents precede their children,
except where the child is an ancestor of the parent; and in a plan of an acyclic workflow
every task has its place in the order, behind all of its parents. -/
theorem precedes_of_build [Ordered τ] {w : Workflow} {hosts : List Host} {bound : Int}
    {padding : Quantity} {p : Plan τ} (h : build τ w hosts bound padding = .ok p)
    (hnum : p.HasNumericSlots) :
    (∀ child t parent, w.find? child = some t → parent ∈ t.parents →
      ¬w.Ancestor child parent → p.Precedes parent child) ∧
    (w.isAcyclic = .ok true → p.order.Perm w.ids ∧
      ∀ child t parent, w.find? child = some t → parent ∈ t.parents →
        p.Precedes parent child) := by
  obtain ⟨platform, first, last, hplanned⟩ := planned_of_build h
  have hparent {child parent : Int} {t : Task} (ht : w.find? child = some t)
      (hmem : parent ∈ t.parents) : parent ∈ w.parentsOf child := by
    rw [Workflow.parentsOf_eq ht]
    exact hmem
  refine ⟨fun child t parent ht hmem => hplanned.precedes hnum (hparent ht hmem),
    fun hacyclic => ?_⟩
  refine ⟨hplanned.perm_order, fun child t parent ht hmem => ?_⟩
  refine hplanned.precedes hnum (hparent ht hmem) fun hanc => ?_
  exact Workflow.not_ancestor_self hplanned.reciprocal hacyclic child
    (hanc.tail (hparent ht hmem))

/-- The task in front of a cycle precedes the task that it leads to, in doubles. -/
theorem precedes_loop :
    build Float loop [loopHost] 3 1 = .ok (loopPlan Float) ∧
      (loopPlan Float).HasNumericSlots ∧ (loopPlan Float).Precedes 1 2 := by
  have hnum : (loopPlan Float).HasNumericSlots := by decide +kernel
  have hcycle : ¬loop.Ancestor 2 1 := by
    intro h
    obtain ⟨other, -, hparent⟩ := Relation.TransGen.tail'_iff.mp h
    exact absurd hparent List.not_mem_nil
  exact ⟨build_loop_float, hnum,
    (precedes_of_build build_loop_float hnum).1 2 _ 1 rfl List.mem_cons_self hcycle⟩

end Plan

end SharedLink
