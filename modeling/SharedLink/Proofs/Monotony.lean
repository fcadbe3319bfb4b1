import SharedLink.Proofs.Undisturbed

/-!
# SharedLink.Proofs.Monotony

Nothing is gained by more reservations or later parents.

A task that is sent later has its own send leg out of the way of earlier times, and one
could think that this leaves a gap there for its receive leg.  It does not: in exact
arithmetic the receive leg goes to the first vacancy behind the send leg and, after it, the
computation or the padding, whichever takes longer, on the timeline as it was.  So both legs
come from searches that do not know of each other's reservations, and the second one begins
later only if the first leg does.

* `readyAt_mono` — a task is ready no earlier if none of its parents ends earlier;
* `Fits.receiveStart_eq_max` — where the receive leg goes, on the timeline as it was;
* `fit_mono` — with more reservations and later parents neither leg comes earlier.
-/

namespace SharedLink

open Timescale

namespace Draft

open Timeline

/-- A task is ready no earlier if none of its parents ends earlier: the last of them to end has
only been put off. -/
theorem readyAt_mono {τ : Type} [Timescale τ] [Arithmetic τ] {endOf? later? : Int → Option τ}
    {t : Task} (h : ∀ parent ∈ t.parents, (endOf? parent).getD 0 ≤ (later? parent).getD 0) :
    readyAt endOf? t ≤ readyAt later? t := by
  have hdelayed (parent : Int) (hparent : parent ∈ t.parents) :
      (endOf? parent).getD 0 + readyDelay ≤ (later? parent).getD 0 + readyDelay := by
    have hle := h parent hparent
    exact Arithmetic.add_le_add_right hle
      (Ordered.isNumber_add_one (Ordered.isNumber_left hle))
      (Ordered.isNumber_add_one (Ordered.isNumber_right hle))
  unfold readyAt
  by_cases hparents : t.parents = []
  · rw [hparents]
    exact Ordered.isNumber_zero
  · have hne : t.parents.map (fun parent => (endOf? parent).getD 0 + readyDelay) ≠ [] :=
      mt List.map_eq_nil_iff.mp hparents
    obtain ⟨parent, hparent, hlast⟩ := List.mem_map.mp (largest_mem 0 hne)
    rw [← hlast]
    refine Ordered.le_trans (hdelayed parent hparent)
      (le_largest 0 ?_ (List.mem_map_of_mem hparent))
    exact List.forall_mem_map.mpr fun other hother => Ordered.isNumber_right (hdelayed other hother)

variable {w : Workflow} {d : Draft Rat} {endOf? : Int → Option Rat} {line sent line' : Timeline Rat}
  {t : Task} {cost : Cost Rat} {slot : Slot Rat}

/-- **The receive leg** goes to the first vacancy behind the computation or the padding, whichever
takes longer after the send leg, on the timeline as it was. -/
theorem Fits.receiveStart_eq_max (h : Fits w d endOf? line t cost slot sent line')
    (hsorted : Sorted before line.intervals) (htransfer : 0 ≤ cost.transfer)
    (hcomp : 0 ≤ cost.comp) :
    slot.receiveStart = line.earliestGap
      (slot.sendStart + cost.transfer + max cost.comp d.padding) cost.transfer := by
  cases le_or_gt d.padding cost.comp with
  | inl hlong =>
      rw [max_eq_left hlong]
      exact h.receiveStart_eq_of_le line.isNumeric_rat hsorted hlong Rat.le_refl Rat.le_refl
  | inr hshort =>
      rw [max_eq_right hshort.le]
      exact h.receiveStart_eq hsorted htransfer hcomp hshort

/-- **Monotony**: in exact arithmetic a task is sent no earlier and received no earlier on a
timeline that holds all reservations of another one, and further ones, and after parents of which
none ends earlier. -/
theorem fit_mono {id : Int} (hid : w.find? id = some t) (hcost : d.costOf id = .ok cost)
    (hpadding : 0 ≤ d.padding) (htransfer : 0 ≤ cost.transfer) (hcomp : 0 ≤ cost.comp)
    {fuller : Timeline Rat} (hsorted : Sorted before line.intervals)
    (hsorted' : Sorted before fuller.intervals) (hsub : line.intervals ⊆ fuller.intervals)
    {later? : Int → Option Rat}
    (hends : ∀ parent ∈ t.parents, (endOf? parent).getD 0 ≤ (later? parent).getD 0) :
    ∃ slot line' slot' fuller', d.fit w endOf? id line = .ok (slot, line') ∧
      d.fit w later? id fuller = .ok (slot', fuller') ∧
      slot.sendStart ≤ slot'.sendStart ∧ slot.receiveEnd ≤ slot'.receiveEnd := by
  obtain ⟨slot, sent, line', hfit, hfits⟩ :=
    exists_fits hid hcost hpadding.not_gt htransfer.not_gt endOf? line
  obtain ⟨slot', sent', fuller', hfit', hfits'⟩ :=
    exists_fits hid hcost hpadding.not_gt htransfer.not_gt later? fuller
  have hearlier {after after' : Rat} (hle : after ≤ after') :
      line.earliestGap after cost.transfer ≤ fuller.earliestGap after' cost.transfer :=
    (isEarliest_rat hsorted after cost.transfer).mono (isEarliest_rat hsorted' after' cost.transfer)
      hle Rat.le_refl (isFinite_rat _) hsub
  have hsend : slot.sendStart ≤ slot'.sendStart := by
    rw [hfits.sendStart, hfits'.sendStart]
    exact hearlier (readyAt_mono hends)
  have hreceive : slot.receiveStart ≤ slot'.receiveStart := by
    rw [hfits.receiveStart_eq_max hsorted htransfer hcomp,
      hfits'.receiveStart_eq_max hsorted' htransfer hcomp]
    exact hearlier (by linarith)
  refine ⟨slot, line', slot', fuller', hfit, hfit', hsend, ?_⟩
  rw [hfits.receiveEnd, hfits'.receiveEnd]
  exact add_le_add_left hreceive cost.transfer

/-- A task that computes nothing, with two parents. -/
def joined : Workflow where
  tasks := [{ Task.make 3 0 1 none none with parents := [1, 2] }]
  nodup_ids := by decide

/-- The draft of a task that is transferred in five seconds, with a padding of one. -/
def joinedDraft : Draft Rat := ⟨1, [(3, ⟨0, 5⟩)], .empty, []⟩

/-- When two parents ended, of which the second may not have been placed. -/
def joinedEnds (first : Rat) (second : Option Rat) : Int → Option Rat
  | 1 => some first
  | 2 => second
  | _ => none

/-- The first parent ends later, the second ends at all, and another transfer is in the way: the
send leg waits for that one, and the receive leg, behind its padding, just fits in front of the
last reservation. -/
theorem fit_mono_joined : ∃ line' fuller',
    joinedDraft.fit joined (joinedEnds 3 none) 3 ⟨[⟨0, 2⟩, ⟨20, 22⟩]⟩ = .ok (⟨4, 10, 15⟩, line') ∧
      joinedDraft.fit joined (joinedEnds 6 (some 2)) 3 ⟨[⟨0, 2⟩, ⟨1, 9⟩, ⟨20, 22⟩]⟩ =
        .ok (⟨9, 15, 20⟩, fuller') ∧
      (4 : Rat) ≤ 9 ∧ (15 : Rat) ≤ 20 := by
  have hid : joined.find? 3 = some joined.tasks[0] := by decide +kernel
  have hcost : joinedDraft.costOf 3 = .ok ⟨0, 5⟩ := by decide +kernel
  have hsorted : Sorted before [(⟨0, 2⟩ : Interval Rat), ⟨20, 22⟩] := by decide +kernel
  have hsorted' : Sorted before [(⟨0, 2⟩ : Interval Rat), ⟨1, 9⟩, ⟨20, 22⟩] := by decide +kernel
  have hends : ∀ parent ∈ joined.tasks[0].parents,
      (joinedEnds 3 none parent).getD 0 ≤ (joinedEnds 6 (some 2) parent).getD 0 := by decide +kernel
  obtain ⟨slot, line', slot', fuller', hfit, hfit', hsend, hreceive⟩ := fit_mono hid hcost
    (by decide +kernel) (by decide +kernel) (by decide +kernel) hsorted hsorted'
    (by decide +kernel) hends
  have hslot : (joinedDraft.fit joined (joinedEnds 3 none) 3 ⟨[⟨0, 2⟩, ⟨20, 22⟩]⟩).map (·.1) =
      .ok ⟨4, 10, 15⟩ := by decide +kernel
  have hslot' : (joinedDraft.fit joined (joinedEnds 6 (some 2)) 3
      ⟨[⟨0, 2⟩, ⟨1, 9⟩, ⟨20, 22⟩]⟩).map (·.1) = .ok ⟨9, 15, 20⟩ := by decide +kernel
  rw [hfit] at hslot
  rw [hfit'] at hslot'
  obtain rfl := Except.ok.inj hslot
  obtain rfl := Except.ok.inj hslot'
  exact ⟨line', fuller', hfit, hfit', hsend, hreceive⟩

end Draft

end SharedLink
