import SharedLink.Proofs.Delays
import SharedLink.Proofs.Legs

/-!
# SharedLink.Proofs.Undisturbed

When the send leg of a task makes no difference to its receive leg.

The send leg is reserved, padded, before the gap for the receive leg is sought.  The
search begins when the computation ends, and if this takes no less than the padding,
the reservation is over by then.  What is over pushes no candidate, and where the scan
stops in front of it, it would have stopped in front of the next interval as well: they
are in the order of their starts.  So nothing is asked of the other reservations, and
rounded sums do as well as exact ones.

* `earliestGap_reserve_of_le` — a search does not depend on what is over when it begins;
* `exists_fits` — a task with a cost can be fitted;
* `undisturbed_of_fit` — both legs are where they would be if both gaps were sought on
  the timeline as it was.
-/

namespace SharedLink

open Timescale

variable {τ : Type} [Timescale τ]

namespace Timeline

/-! ## what is over -/

/-- An interval that stops before a candidate does not push it, wherever it stands in front of
those that start no earlier: what fits in front of it fits in front of them. -/
theorem gapFrom_append_cons [Ordered τ] {d c : τ} {front back : List (Interval τ)}
    {i : Interval τ} (hstop : i.stop ≤ c)
    (hback : IsNumber i.start → ∀ j ∈ back, i.start ≤ j.start) :
    gapFrom d c (front ++ i :: back) = gapFrom d c (front ++ back) := by
  induction front generalizing c with
  | nil =>
      have hsame : larger c i.stop = c := if_neg (not_lt_of_le hstop)
      rw [List.nil_append, List.nil_append, gapFrom, hsame]
      split
      next hfits =>
        cases back with
        | nil => rfl
        | cons j rest =>
            have hnext := hback (Ordered.isNumber_right hfits) j List.mem_cons_self
            rw [gapFrom, if_pos (Ordered.le_trans hfits hnext)]
      next => rfl
  | cons j rest ih =>
      have hc : IsNumber c := Ordered.isNumber_right hstop
      rw [List.cons_append, List.cons_append, gapFrom, gapFrom,
        ih (Ordered.le_trans hstop (le_larger_left hc))]

variable {t t' : Timeline τ} {start stop after d : τ}

/-- A reservation is put somewhere between the others. -/
theorem exists_split_of_reserve (h : t.reserve start stop = .ok t') :
    ∃ front back, t.intervals = front ++ back ∧
      t'.intervals = front ++ ⟨start, stop⟩ :: back :=
  ⟨_, _, (List.take_append_drop _ _).symm, intervals_reserve h⟩

/-- **What is over makes no difference**: a search comes to the same with a reservation that
stops before it begins and without it. -/
theorem earliestGap_reserve_of_le [Ordered τ] (hnum : t.IsNumeric)
    (hsorted : Sorted before t.intervals) (h : t.reserve start stop = .ok t')
    (hle : stop ≤ after) : t'.earliestGap after d = t.earliestGap after d := by
  obtain ⟨front, back, ht, ht'⟩ := exists_split_of_reserve h
  unfold earliestGap
  rw [ht, ht']
  refine gapFrom_append_cons hle fun hstart => ?_
  have hnum' : t'.IsNumeric := fun i hi => by
    cases List.mem_cons.mp ((perm_reserve h).mem_iff.mp hi) with
    | inl hnew => exact hnew ▸ ⟨hstart, Ordered.isNumber_left hle⟩
    | inr hold => exact hnum i hold
  have hstarts := pairwise_start hnum' (sorted_reserve hnum' hsorted h)
  rw [ht', List.pairwise_append, List.pairwise_cons] at hstarts
  exact hstarts.2.1.1

/-- The slot of a task of which both gaps are sought on the same timeline. -/
def plainSlot (line : Timeline τ) (ready : τ) (cost : Cost τ) : Slot τ :=
  let sendStart := line.earliestGap ready cost.transfer
  let receiveStart := line.earliestGap (sendStart + cost.transfer + cost.comp) cost.transfer
  ⟨sendStart, receiveStart, receiveStart + cost.transfer⟩

end Timeline

namespace Draft

open Timeline

variable {w : Workflow} {d : Draft τ} {id : Int} {t : Task} {cost : Cost τ} {line : Timeline τ}

/-- A task with a cost can be fitted anywhere, and then both of its legs are found and reserved. -/
theorem exists_fits [Arithmetic τ] (hid : w.find? id = some t) (hcost : d.costOf id = .ok cost)
    (hpadding : ¬d.padding < 0) (htransfer : ¬cost.transfer < 0) (endOf? : Int → Option τ)
    (line : Timeline τ) : ∃ slot sent line', d.fit w endOf? id line = .ok (slot, line') ∧
      Fits w d endOf? line t cost slot sent line' := by
  have hknown := costOf_eq_ok_iff.mp hcost
  have hfittable : Fittable w d id :=
    ⟨Workflow.contains_iff_find?.mpr ⟨t, hid⟩, ⟨cost, hknown, htransfer⟩, hpadding⟩
  obtain ⟨slot, line', hfit⟩ := hfittable.exists_fit endOf? line
  obtain ⟨t', cost', sent, rfl, hfits⟩ := fits_of_fit hfit
  obtain rfl : t' = t := Option.some.inj (hfits.found.symm.trans hid)
  obtain rfl : cost' = cost := Option.some.inj (hfits.known.symm.trans hknown)
  exact ⟨slot, sent, line', hfit, hfits⟩

/-- After a computation that takes no less than the padding, the receive leg is where it would be
without the send leg. -/
theorem Fits.receiveStart_eq_of_le [Arithmetic τ] {endOf? : Int → Option τ} {slot : Slot τ}
    {sent line' : Timeline τ} (h : Fits w d endOf? line t cost slot sent line')
    (hnum : line.IsNumeric) (hsorted : Sorted before line.intervals)
    (hlong : d.padding ≤ cost.comp)
    (hfinish : IsNumber (slot.sendStart + cost.transfer + cost.comp))
    (hstop : IsNumber (slot.sendStart + cost.transfer + d.padding)) :
    slot.receiveStart =
      line.earliestGap (slot.sendStart + cost.transfer + cost.comp) cost.transfer := by
  rw [h.receiveStart]
  exact earliestGap_reserve_of_le hnum hsorted h.send (add_le_add_left hlong hstop hfinish)

/-- **Undisturbed**: a task that computes for no less than the padding is fitted in the slot that
both searches give on the timeline as it was, although its own send leg is reserved between
them.  No NaN may be among the reservations, and neither where the computation ends nor where
the padded send leg does. -/
theorem undisturbed_of_fit [Arithmetic τ] (hid : w.find? id = some t)
    (hcost : d.costOf id = .ok cost) (hpadding : ¬d.padding < 0) (htransfer : ¬cost.transfer < 0)
    (hlong : d.padding ≤ cost.comp) (hnum : line.IsNumeric)
    (hsorted : Sorted before line.intervals) (endOf? : Int → Option τ)
    (hfinish : IsNumber
      ((line.plainSlot (readyAt endOf? t) cost).sendStart + cost.transfer + cost.comp))
    (hstop : IsNumber
      ((line.plainSlot (readyAt endOf? t) cost).sendStart + cost.transfer + d.padding)) :
    ∃ line', d.fit w endOf? id line = .ok (line.plainSlot (readyAt endOf? t) cost, line') ∧
      line'.intervals.Perm (((line.plainSlot (readyAt endOf? t) cost).legs cost.transfer).map
        (·.padded d.padding) ++ line.intervals) := by
  obtain ⟨slot, sent, line', hfit, hfits⟩ :=
    exists_fits hid hcost hpadding htransfer endOf? line
  have hsend : (line.plainSlot (readyAt endOf? t) cost).sendStart = slot.sendStart :=
    hfits.sendStart.symm
  rw [hsend] at hfinish hstop
  have hreceive := hfits.receiveStart_eq_of_le hnum hsorted hlong hfinish hstop
  have hslot : line.plainSlot (readyAt endOf? t) cost = slot := by
    unfold plainSlot
    dsimp only
    rw [← hfits.sendStart, ← hreceive, ← hfits.receiveEnd]
  have hreserved := perm_reserve hfits.receive
  rw [hfits.receiveEnd] at hreserved
  rw [hslot]
  refine ⟨line', hfit, ?_⟩
  calc
    List.Perm line'.intervals (_ :: sent.intervals) := hreserved
    List.Perm _ (_ :: _ :: line.intervals) := (perm_reserve hfits.send).cons _
    List.Perm _ (_ :: _ :: line.intervals) := .swap _ _ _

/-- The draft of `pinchedDraft` in doubles and without a padding. -/
def loosened : Draft Float where
  padding := 0
  costs := [(1, ⟨20, 4⟩), (2, ⟨0, 9⟩)]
  timeline := ⟨[⟨0, 4⟩, ⟨24, 28⟩]⟩
  placed := [(1, ⟨0, 24, 28⟩)]

/-- A task that computes nothing is received as soon as it is sent, in front of the other
reservation, for its send leg is over when its computation ends: at the same time. -/
theorem undisturbed_loosened : ∃ line',
    loosened.fit pinched loosened.endOf? 2 loosened.timeline = .ok (⟨4, 13, 22⟩, line') ∧
      line'.intervals.Perm [⟨4, 13⟩, ⟨13, 22⟩, ⟨0, 4⟩, ⟨24, 28⟩] := by
  have hid : pinched.find? 2 = some pinched.tasks[1] := by decide +kernel
  have hcost : loosened.costOf 2 = .ok ⟨0, 9⟩ := by decide +kernel
  have hnum : loosened.timeline.IsNumeric := by decide +kernel
  have hsorted : Sorted before loosened.timeline.intervals := by decide +kernel
  obtain ⟨line', hfit, hperm⟩ := undisturbed_of_fit hid hcost (by decide +kernel)
    (by decide +kernel) (by decide +kernel) hnum hsorted loosened.endOf? (by decide +kernel)
    (by decide +kernel)
  have hslot : loosened.timeline.plainSlot (readyAt loosened.endOf? pinched.tasks[1]) ⟨0, 9⟩ =
      ⟨4, 13, 22⟩ := by decide +kernel
  have hlegs : ((⟨4, 13, 22⟩ : Slot Float).legs 9).map (·.padded loosened.padding) =
      [⟨4, 13⟩, ⟨13, 22⟩] := by decide +kernel
  rw [hslot] at hfit hperm
  rw [hlegs] at hperm
  exact ⟨line', hfit, hperm⟩

end Draft

end SharedLink
