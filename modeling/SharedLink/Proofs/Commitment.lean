import SharedLink.Proofs.Arrangement
import SharedLink.Proofs.Replay
import SharedLink.Proofs.Settling

/-!
# SharedLink.Proofs.Commitment

Committing to an order that was tried.

Orders are tried on a copy of the reservations, where tasks are placed one by one, while
committing to them settles each task, which goes through its ancestors first.  Where the
parents of each task are placed or in front of it there is nothing to go through, so the
same tasks are placed in the same order and end alike: an order that is chosen by its
trial ends when the trial says, and no other order of the same tasks ends earlier.

* `Workflow.InRow`, `Workflow.Ready` — tasks that can be placed in a row, or in any order;
* `foldlM_settled_of_placeAll` — settling tasks in a row only places them;
* `exists_commit` — what is committed to ends as it was tried;
* `commits_of_check` — both, whatever was settled before.
-/

namespace SharedLink

open Timescale

/-! ## tasks in a row -/

namespace Workflow

variable {w : Workflow} {order ids : List Int} {id : Int}

/-- Tasks that can be placed in a row: none of them is placed or occurs twice, and the parents
of each are placed or in front of it. -/
structure InRow (w : Workflow) (order ids : List Int) : Prop where
  tasks : ∀ id ∈ ids, w.contains id = true
  nodup : ids.Nodup
  unplaced : ∀ id ∈ ids, id ∉ order
  parents : ∀ front id back, ids = front ++ id :: back →
    ∀ parent ∈ w.parentsOf id, parent ∈ order ∨ parent ∈ front

/-- The first one can be placed at once, and the others are in a row behind it. -/
theorem InRow.cons (h : w.InRow order (id :: ids)) :
    w.parentsOf id ⊆ order ∧ w.InRow (order ++ [id]) ids := by
  obtain ⟨hnew, hnodup⟩ := List.nodup_cons.mp h.nodup
  refine ⟨fun parent hparent => ?_, (List.forall_mem_cons.mp h.tasks).2, hnodup, ?_, ?_⟩
  · exact (h.parents [] id ids rfl parent hparent).resolve_right List.not_mem_nil
  · intro other hother hmem
    cases List.mem_append.mp hmem with
    | inl hplaced => exact h.unplaced other (List.mem_cons_of_mem id hother) hplaced
    | inr heq => exact hnew (List.mem_singleton.mp heq ▸ hother)
  · rintro front other back rfl parent hparent
    have hplaced := h.parents (id :: front) other back rfl parent hparent
    rwa [List.mem_cons, ← or_assoc, ← List.mem_singleton, ← List.mem_append] at hplaced

/-- They occur once behind what is placed. -/
theorem InRow.nodup_append (h : w.InRow order ids) (horder : order.Nodup) :
    (order ++ ids).Nodup :=
  List.nodup_append.mpr ⟨horder, h.nodup, fun _ hplaced id hid heq =>
    h.unplaced id hid (heq ▸ hplaced)⟩

/-- Tasks that can be placed in any order: none of them is placed or occurs twice, and all of
their parents are placed. -/
structure Ready (w : Workflow) (order ids : List Int) : Prop where
  tasks : ∀ id ∈ ids, w.contains id = true
  nodup : ids.Nodup
  unplaced : ∀ id ∈ ids, id ∉ order
  parents : ∀ id ∈ ids, w.parentsOf id ⊆ order

theorem Ready.inRow {ids' : List Int} (h : w.Ready order ids) (hperm : ids'.Perm ids) :
    w.InRow order ids' where
  tasks id hid := h.tasks id (hperm.mem_iff.mp hid)
  nodup := hperm.nodup_iff.mpr h.nodup
  unplaced id hid := h.unplaced id (hperm.mem_iff.mp hid)
  parents front id back hsplit parent hparent := by
    have hid : id ∈ ids' := by
      rw [hsplit]
      exact List.mem_append_right _ List.mem_cons_self
    exact .inl (h.parents id (hperm.mem_iff.mp hid) hparent)

/-- A walk passes over parents that are all listed. -/
theorem foldl_advance_of_listed {fresh parents : List Int}
    (htasks : ∀ parent ∈ parents, w.contains parent = true) (hlisted : parents ⊆ order) :
    parents.foldl (w.advance fresh) ⟨order, none⟩ = ⟨order, none⟩ := by
  induction parents with
  | nil => rfl
  | cons parent rest ih =>
      obtain ⟨htask, hrest⟩ := List.forall_mem_cons.mp htasks
      obtain ⟨hmem, hsub⟩ := List.cons_subset.mp hlisted
      rw [List.foldl_cons, advance_of_skipped htask (.inl hmem), ih hrest hsub]

/-- A walk to a task of which all parents are listed lists just the task. -/
theorem ancestry_of_parents (hrec : w.Reciprocal) (hid : w.contains id = true) (hnew : id ∉ order)
    (hparents : w.parentsOf id ⊆ order) : w.ancestry order id = ⟨order ++ [id], none⟩ := by
  rw [ancestry_of_unlisted hid hnew, visit_eq,
    foldl_advance_of_listed (fun parent hp => hrec.contains_parent hp) hparents]
  rfl

end Workflow

namespace Draft

variable {τ : Type} [Timescale τ] {w : Workflow} {first d d' : Draft τ} {id : Int}
  {ids : List Int}

/-! ## committing -/

/-- The latest end of some tasks, zero if there are none. -/
def latest (d : Draft τ) (ids : List Int) : τ :=
  largest 0 (ids.map fun id => (d.endOf? id).getD 0)

/-- Settling tasks in a row places them, and no others. -/
theorem foldlM_settled_of_placeAll (hrec : w.Reciprocal) (hrow : w.InRow d.order ids)
    (h : d.placeAll w ids = (d', none)) : ids.foldlM (settled w) d = .ok d' := by
  induction ids generalizing d with
  | nil =>
      obtain ⟨rfl, -⟩ := Prod.mk.inj h
      rfl
  | cons id rest ih =>
      obtain ⟨next, hplace, hrest⟩ := placeAll_cons_iff.mp h
      obtain ⟨hparents, hrow'⟩ := hrow.cons
      have hnew : id ∉ d.order := hrow.unplaced id List.mem_cons_self
      have hid : w.contains id = true := hrow.tasks id List.mem_cons_self
      have hsettled : settled w d id = .ok next := by
        unfold settled
        rw [settle_eq (Workflow.ancestry_of_parents hrec hid hnew hparents),
          placeAll_cons_iff.mpr ⟨next, hplace, rfl⟩]
      rw [← order_place hplace] at hrow'
      rw [List.foldlM_cons, hsettled]
      exact ih hrow' hrest

/-- The ends of tasks that were placed last are the last ends. -/
theorem latest_of_ends {noted : List (Int × τ)} (hnodup : d'.order.Nodup)
    (hends : d'.ends = d.ends ++ noted) (horder : d'.order = d.order ++ ids) :
    d'.latest ids = largest 0 (noted.map (·.2)) := by
  have hids : ids = noted.map (·.1) := by
    rw [← keys_ends, ← keys_ends, hends, List.map_append] at horder
    exact (List.append_cancel_left horder).symm
  have hend (entry : Int × τ) (hentry : entry ∈ noted) : d'.endOf? entry.1 = some entry.2 := by
    have hmem : entry ∈ d'.ends := by
      rw [hends]
      exact List.mem_append_right _ hentry
    obtain ⟨⟨id, slot⟩, hslot, rfl⟩ := List.mem_map.mp hmem
    unfold endOf?
    rw [slotOf?_of_mem hnodup hslot]
    rfl
  unfold latest
  rw [hids, List.map_map]
  refine congrArg _ (List.map_congr_left fun entry hentry => ?_)
  rw [Function.comp_apply, hend entry hentry]
  rfl

variable [Arithmetic τ]

/-- **Committing** to tasks in a row places just these, in this order, and the last of them ends
when the trial of the row says. -/
theorem exists_commit (hrec : w.Reciprocal) (hprepared : Prepared w d) (hnodup : d.order.Nodup)
    (hrow : w.InRow d.order ids) :
    ∃ d', ids.foldlM (settled w) d = .ok d' ∧ d'.order = d.order ++ ids ∧
      d.trial w ids = .ok (d'.latest ids) := by
  have hplaced : d.placeAll w ids = ((d.placeAll w ids).1, none) :=
    Prod.ext rfl (hprepared.placeAll hrow.tasks)
  have horder := order_placeAll hplaced
  have hnodup' := hrow.nodup_append hnodup
  obtain ⟨noted, hends, htrial⟩ := trial_of_placeAll hnodup' hplaced
  refine ⟨_, foldlM_settled_of_placeAll hrec hrow hplaced, horder, ?_⟩
  rw [latest_of_ends (horder ▸ hnodup') hends horder, htrial]

/-! ## every draft that is reached -/

/-- Committing to tasks in a row places just these, in this order, and their latest end is what
trying them gave.  Of a few tasks that are ready, if no trial gives NaN, no order ends earlier
than the one that is chosen. -/
structure Commits (w : Workflow) (d : Draft τ) : Prop where
  achieves : ∀ ids, w.InRow d.order ids →
    ∃ d', ids.foldlM (settled w) d = .ok d' ∧ d'.order = d.order ++ ids ∧
      d.trial w ids = .ok (d'.latest ids)
  best : ∀ (bound : Int) (parents : List Int), parents.length ≤ bound → w.Ready d.order parents →
    (∀ order value, order.Perm parents → d.trial w order = .ok value → IsNumber value) →
    ∃ chosen d', d.arrange w bound parents = .ok chosen ∧ chosen.Perm parents ∧
      chosen.foldlM (settled w) d = .ok d' ∧
      ∀ order : List Int, order.Perm parents →
        ∃ other, order.foldlM (settled w) d = .ok other ∧ d'.latest chosen ≤ other.latest order

/-- **Commitment**: in a checked workflow, whatever tasks have been settled from an empty draft on,
committing to an order achieves what its trial promised. -/
theorem commits_of_check {platform : Platform τ} {padding : Quantity} (hcheck : w.check = .ok ())
    (hstart : start w platform padding = .ok first) (calls : List Int) :
    Commits w (first.settleEach w calls) := by
  have hrec : w.Reciprocal := Workflow.check_eq_ok_iff.mp hcheck
  have hreaches := reaches_settleEach w first calls
  have hprepared := hreaches.prepared (starts_of_start hstart).prepared
  have hnodup := hreaches.nodup_order (starts_of_start hstart).placed
  refine ⟨fun ids => exists_commit hrec hprepared hnodup,
    fun bound parents hbound hready hnum => ?_⟩
  obtain ⟨chosen, hchosen, hperm⟩ := hprepared.exists_arrange bound hready.tasks
  obtain ⟨d', hd', -, htrial⟩ := exists_commit hrec hprepared hnodup (hready.inRow hperm)
  refine ⟨chosen, d', hchosen, hperm, hd', fun order horder => ?_⟩
  obtain ⟨other, hother, -, htrial'⟩ :=
    exists_commit hrec hprepared hnodup (hready.inRow horder)
  exact ⟨other, hother, arrange_le hbound hnum hchosen htrial horder htrial'⟩

/-- Once the first task is placed, it is better to start with the long computation. -/
theorem commits_uneven :
    uneven.check = .ok () ∧ ∃ d' other,
      (unevenDraft.settleEach uneven [1]).arrange uneven 2 [2, 3] = .ok [3, 2] ∧
      [3, 2].foldlM (settled uneven) (unevenDraft.settleEach uneven [1]) = .ok d' ∧
      [2, 3].foldlM (settled uneven) (unevenDraft.settleEach uneven [1]) = .ok other ∧
      d'.latest [3, 2] ≤ other.latest [2, 3] ∧ d'.latest [3, 2] = 32 := by
  have hcheck : uneven.check = .ok () := by decide +kernel
  obtain ⟨platform, -, hstart⟩ := bind_eq_ok_iff.mp start_uneven
  have hcommits := commits_of_check hcheck hstart [1]
  have hready : uneven.Ready (unevenDraft.settleEach uneven [1]).order [2, 3] :=
    ⟨by decide, by decide, by decide +kernel, by decide +kernel⟩
  have hnum (order : List Int) (value : Float) (hperm : order.Perm [2, 3])
      (htrial : (unevenDraft.settleEach uneven [1]).trial uneven order = .ok value) :
      IsNumber value := by
    have hvalues : ∀ order ∈ orderings [2, 3],
        (unevenDraft.settleEach uneven [1]).trial uneven order = .ok 45 ∨
          (unevenDraft.settleEach uneven [1]).trial uneven order = .ok 32 := by decide +kernel
    cases hvalues order (mem_orderings_iff.mpr hperm) with
    | inl h => rw [← Except.ok.inj (h.symm.trans htrial)]; decide +kernel
    | inr h => rw [← Except.ok.inj (h.symm.trans htrial)]; decide +kernel
  obtain ⟨chosen, d', hchosen, -, hd', hbest⟩ := hcommits.best 2 [2, 3] (by decide) hready hnum
  have harrange : (unevenDraft.settleEach uneven [1]).arrange uneven 2 [2, 3] = .ok [3, 2] := by
    decide +kernel
  obtain rfl : [3, 2] = chosen := Except.ok.inj (harrange.symm.trans hchosen)
  obtain ⟨other, hother, hle⟩ := hbest [2, 3] (.refl _)
  have hlatest : ([3, 2].foldlM (settled uneven) (unevenDraft.settleEach uneven [1])).map
      (·.latest [3, 2]) = .ok 32 := by decide +kernel
  rw [hd'] at hlatest
  exact ⟨hcheck, d', other, harrange, hd', hother, hle, Except.ok.inj hlatest⟩

end Draft

end SharedLink
