import SharedLink.Proofs.Settling
import SharedLink.Proofs.Vacancies

/-!
# SharedLink.Proofs.Delays

What a task loses by reserving its send leg first.

The send leg is reserved, padded, before the gap for the receive leg is sought.  A
computation shorter than the padding then ends within this reservation, so the receive
leg goes to the first vacancy behind it instead of the first one behind the computation.
Where the link stays free the two are no further apart than the padding.  But a transfer
that just fits in front of another reservation need not fit there any more, and then
has to wait until that one is over, however long that is.

* `Fits.receiveStart_eq` — the receive leg is in the first vacancy behind the padded send leg;
* `delay_of_fit` — it is never early, and late by the padding at most just if there is a
  vacancy in time;
* `delay_pinched` — a transfer that waits for longer than the padding.
-/

namespace SharedLink

namespace Draft

open Timeline

/-- Where a receive leg would start if its gap was sought without the send leg of its task. -/
def plainStart (line : Timeline Rat) (cost : Cost Rat) (sendStart : Rat) : Rat :=
  line.earliestGap (sendStart + cost.transfer + cost.comp) cost.transfer

/-- The end of a send leg with its padding. -/
def sendStop (d : Draft Rat) (cost : Cost Rat) (sendStart : Rat) : Rat :=
  sendStart + cost.transfer + d.padding

variable {w : Workflow} {d : Draft Rat} {endOf? : Int → Option Rat} {line sent line' : Timeline Rat}
  {t : Task} {cost : Cost Rat} {slot : Slot Rat}

/-- In exact arithmetic every search in an ordered timeline finds the earliest vacancy. -/
theorem isEarliest_rat (hsorted : Sorted before line.intervals) (after duration : Rat) :
    line.IsEarliest after duration (line.earliestGap after duration) :=
  isEarliest_earliestGap line.isNumeric_rat hsorted Rat.le_refl
    (Timescale.isFinite_rat duration)

/-- What is vacant once the send leg is reserved: what was vacant before and is clear of it. -/
theorem Fits.vacant_iff (h : Fits w d endOf? line t cost slot sent line') (c : Rat) :
    sent.Vacant c cost.transfer ↔ line.Vacant c cost.transfer ∧
      (d.sendStop cost slot.sendStart ≤ c ∨ c + cost.transfer ≤ slot.sendStart - d.padding) := by
  unfold Vacant
  simp only [(perm_reserve h.send).mem_iff, List.forall_mem_cons]
  exact and_comm

theorem Fits.sorted_sent (h : Fits w d endOf? line t cost slot sent line')
    (hsorted : Sorted before line.intervals) : Sorted before sent.intervals :=
  sorted_reserve sent.isNumeric_rat hsorted h.send

/-- **Behind the send leg**: after a computation shorter than the padding the receive leg
goes to the first vacancy from the end of the padded send leg on, since it is sought from behind
the start of that leg. -/
theorem Fits.receiveStart_eq (h : Fits w d endOf? line t cost slot sent line')
    (hsorted : Sorted before line.intervals) (htransfer : 0 ≤ cost.transfer)
    (hcomp : 0 ≤ cost.comp) (hshort : cost.comp < d.padding) :
    slot.receiveStart = line.earliestGap (d.sendStop cost slot.sendStart) cost.transfer := by
  have hfirst := isEarliest_rat hsorted (d.sendStop cost slot.sendStart) cost.transfer
  have hreceive := isEarliest_rat (h.sorted_sent hsorted)
    (slot.sendStart + cost.transfer + cost.comp) cost.transfer
  rw [← h.receiveStart] at hreceive
  obtain ⟨hvacant, hclear⟩ := (h.vacant_iff slot.receiveStart).mp hreceive.vacant
  have hbehind : d.sendStop cost slot.sendStart ≤ slot.receiveStart := by
    refine hclear.resolve_right fun hfront => ?_
    have hafter := hreceive.after_le
    linarith
  refine Rat.le_antisymm (hreceive.least _ ?_ ?_) (hfirst.least _ hbehind hvacant)
  · have hafter := hfirst.after_le
    unfold sendStop at hafter ⊢
    linarith
  · exact (h.vacant_iff _).mpr ⟨hfirst.vacant, .inl hfirst.after_le⟩

/-- **The delay of a receive leg**, in exact arithmetic, behind a computation that is not negative
and shorter than the padding: whatever is reserved, the task is fitted, in the first vacancy from
the time on at which it is ready, and its receive leg starts no earlier than if its gap was
sought without its own send leg.  It starts at most one padding later just if there is a vacancy
that is behind the padded send leg and no later than that. -/
theorem delay_of_fit (hd : d.Knows w) {id : Int} (hcost : d.costOf id = .ok cost)
    (hid : w.contains id = true) (hcomp : 0 ≤ cost.comp) (hshort : cost.comp < d.padding)
    (hsorted : Sorted before line.intervals) (endOf? : Int → Option Rat) :
    ∃ t slot line', w.find? id = some t ∧ d.fit w endOf? id line = .ok (slot, line') ∧
      slot.sendStart = line.earliestGap (readyAt endOf? t) cost.transfer ∧
      plainStart line cost slot.sendStart ≤ slot.receiveStart ∧
      (slot.receiveStart ≤ plainStart line cost slot.sendStart + d.padding ↔
        ∃ c, d.sendStop cost slot.sendStart ≤ c ∧
          c ≤ plainStart line cost slot.sendStart + d.padding ∧ line.Vacant c cost.transfer) := by
  obtain ⟨slot, line', hfit⟩ := hd.prepared.exists_fit hid endOf? line
  obtain ⟨t, cost', sent, rfl, hfits⟩ := fits_of_fit hfit
  have hknown := costOf_eq_ok_iff.mp hcost
  obtain rfl : cost' = cost := Option.some.inj (hfits.known.symm.trans hknown)
  obtain ⟨other, hother, htransfer⟩ := hd.prepared.known t.id hid
  obtain rfl : other = cost' := Option.some.inj (hother.symm.trans hknown)
  have hstart := hfits.receiveStart_eq hsorted (Rat.not_lt.mp htransfer) hcomp hshort
  have hplain := isEarliest_rat hsorted (slot.sendStart + other.transfer + other.comp)
    other.transfer
  have hfirst := isEarliest_rat hsorted (d.sendStop other slot.sendStart) other.transfer
  rw [← hstart] at hfirst
  refine ⟨t, slot, line', hfits.found, hfit, hfits.sendStart, ?_, fun hle => ?_, ?_⟩
  · refine hplain.least _ ?_ hfirst.vacant
    have hafter := hfirst.after_le
    unfold sendStop at hafter
    linarith
  · exact ⟨slot.receiveStart, hfirst.after_le, hle, hfirst.vacant⟩
  · intro ⟨c, hbehind, hle, hvacant⟩
    exact Rat.le_trans (hfirst.least c hbehind hvacant) hle

/-! ## a transfer that has to wait -/

/-- A long computation, and a task that computes nothing. -/
def pinched : Workflow where
  tasks := [
    { Task.make 1 20 1 none none with
      files := [{ name := "part", size := 4, kind := .output }] },
    { Task.make 2 0 1 none none with
      files := [{ name := "data", size := 9, kind := .output }] }]
  nodup_ids := by decide

/-- The draft in which the long computation has been placed, with a padding of one second: its
output is received from 24 to 28. -/
def pinchedDraft : Draft Rat where
  padding := 1
  costs := [(1, ⟨20, 4⟩), (2, ⟨0, 9⟩)]
  timeline := ⟨[⟨-1, 5⟩, ⟨23, 29⟩]⟩
  placed := [(1, ⟨0, 24, 28⟩)]

theorem start_pinched : (do start pinched (← Platform.ofHosts Rat [Plan.loopHost]) 1) =
    .ok { pinchedDraft with timeline := .empty, placed := [] } := by decide +kernel

theorem settled_pinched :
    settled pinched { pinchedDraft with timeline := .empty, placed := [] } 1 =
      .ok pinchedDraft := by decide +kernel

theorem knows_pinched : pinchedDraft.Knows pinched := by
  obtain ⟨platform, -, hstart⟩ := bind_eq_ok_iff.mp start_pinched
  exact ⟨⟨pinched, platform, 1, _, hstart, rfl, rfl⟩, (knows_of_start hstart).costs⟩

/-- **A transfer that waits for longer than the padding**: sent from 5 to 14, the second task
could be received from 14 to 23, up to the other reservation.  Its own send leg is kept until
15, what is left in front of the other one is too short by a second, and it is received from
29 on. -/
theorem delay_pinched :
    settled pinched { pinchedDraft with timeline := .empty, placed := [] } 1 =
        .ok pinchedDraft ∧
      pinchedDraft.Knows pinched ∧ Sorted before pinchedDraft.timeline.intervals ∧
      (∀ i ∈ pinchedDraft.timeline.intervals, i.start ≤ i.stop) ∧
      pinchedDraft.costOf 2 = .ok ⟨0, 9⟩ ∧ pinchedDraft.padding = 1 ∧
      ∃ line', pinchedDraft.fit pinched pinchedDraft.endOf? 2 pinchedDraft.timeline =
          .ok (⟨5, 29, 38⟩, line') ∧
        plainStart pinchedDraft.timeline ⟨0, 9⟩ 5 = 14 ∧
        ¬(29 : Rat) ≤ plainStart pinchedDraft.timeline ⟨0, 9⟩ 5 + pinchedDraft.padding :=
  ⟨settled_pinched, knows_pinched, by decide +kernel, by decide +kernel, by decide +kernel, rfl,
    ⟨[⟨-1, 5⟩, ⟨4, 15⟩, ⟨23, 29⟩, ⟨28, 39⟩]⟩, by decide +kernel, by decide +kernel,
    by decide +kernel⟩

/-- Were the other reservation a second later, the transfer would wait for the padding only. -/
theorem delay_relaxed : ∃ slot line',
    pinchedDraft.fit pinched pinchedDraft.endOf? 2 ⟨[⟨-1, 5⟩, ⟨24, 30⟩]⟩ = .ok (slot, line') ∧
      slot.receiveStart ≤
        plainStart ⟨[⟨-1, 5⟩, ⟨24, 30⟩]⟩ ⟨0, 9⟩ slot.sendStart + pinchedDraft.padding := by
  have hcost : pinchedDraft.costOf 2 = .ok ⟨0, 9⟩ := by decide +kernel
  have hsorted : Sorted before [(⟨-1, 5⟩ : Interval Rat), ⟨24, 30⟩] := by decide +kernel
  obtain ⟨t, slot, line', hfound, hfit, hsend, -, hdelay⟩ :=
    delay_of_fit knows_pinched hcost (by decide) (by decide) (by decide) hsorted
      pinchedDraft.endOf?
  refine ⟨slot, line', hfit, hdelay.mpr ⟨15, ?_⟩⟩
  obtain rfl : _ = t := Option.some.inj hfound
  rw [hsend]
  unfold Vacant
  decide +kernel

end Draft

end SharedLink
