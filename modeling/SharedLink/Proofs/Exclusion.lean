import Mathlib.Tactic.Linarith
import SharedLink.Proofs.Doubles
import SharedLink.Proofs.Legs

/-!
# SharedLink.Proofs.Exclusion

The link is never used by two transfers at once.

Every leg is sought without padding among reservations with padding, and reserved
with padding itself.  So a leg keeps clear of the padding of all legs placed before
it, and in exact times any two legs are one padding apart, whichever came first.
Only the paddings of two legs can overlap.

* `Interval.Clear` — a leg keeps out of the padding of an earlier one;
* `Reaches.pairwise_clear` — the invariant, over the legs in the order of their placement;
* `exclusive_of_build` — what this means for plans, in doubles and in exact times.
-/

namespace SharedLink

open Timescale

variable {τ : Type} [Timescale τ]

/-- A leg starts no earlier than the padded end of an earlier leg, or ends no later than
its padded start. -/
def Interval.Clear (margin : τ) (earlier later : Interval τ) : Prop :=
  (earlier.padded margin).stop ≤ later.start ∨ later.stop ≤ (earlier.padded margin).start

namespace Draft

variable {w : Workflow} {first d d' : Draft τ} {t : Task} {cost : Cost τ} {slot : Slot τ}
  {sent : Timeline τ}

/-- The send leg keeps clear of all legs before it. -/
theorem Places.clear_send [Ordered τ] (h : Places w d t cost slot sent d') (hd : d.Accounted)
    (hnum : d'.timeline.IsNumeric) (hsorted : Sorted Timeline.before d.timeline.intervals)
    (hslot : slot.IsNumeric) : ∀ leg ∈ d.legs,
      Interval.Clear d.padding leg ⟨slot.sendStart, slot.sendStart + cost.transfer⟩ := by
  intro leg hleg
  have hsent := hslot.1
  have hreserved : leg.padded d.padding ∈ d.timeline.intervals :=
    hd.reserved.mem_iff.mpr (List.mem_map_of_mem hleg)
  rw [h.sendStart] at hsent ⊢
  exact Timeline.clear_earliestGap (h.isNumeric_before hnum) hsorted hsent _ hreserved

/-- The receive leg keeps clear of all legs before it, and of its own send leg. -/
theorem Places.clear_receive [Ordered τ] (h : Places w d t cost slot sent d') (hd : d.Accounted)
    (hnum : d'.timeline.IsNumeric) (hsorted : Sorted Timeline.before d.timeline.intervals)
    (hslot : slot.IsNumeric) :
    ∀ leg ∈ ⟨slot.sendStart, slot.sendStart + cost.transfer⟩ :: d.legs,
      Interval.Clear d.padding leg ⟨slot.receiveStart, slot.receiveStart + cost.transfer⟩ := by
  intro leg hleg
  have hreceived : IsNumber slot.receiveStart := by
    have hend := hslot.2
    rw [h.receiveEnd] at hend
    exact Ordered.isNumber_of_add hend
  have hreserved : leg.padded d.padding ∈ sent.intervals := by
    rw [h.perm_sent.mem_iff]
    cases List.mem_cons.mp hleg with
    | inl heq =>
        rw [heq]
        exact List.mem_cons_self
    | inr hleg =>
        exact List.mem_cons_of_mem _ (hd.reserved.mem_iff.mpr (List.mem_map_of_mem hleg))
  rw [h.receiveStart] at hreceived ⊢
  exact Timeline.clear_earliestGap (h.isNumeric_sent hnum) (h.sorted_sent hnum hsorted)
    hreceived _ hreserved

/-- **Exclusion**: of any two legs the later one keeps clear of the earlier. -/
theorem Reaches.pairwise_clear [Ordered τ] (h : Reaches w first d) (hplaced : first.placed = [])
    (htimeline : first.timeline = .empty) (hslots : ∀ entry ∈ d.placed, entry.2.IsNumeric)
    (hnum : d.timeline.IsNumeric) : d.legs.Pairwise (Interval.Clear d.padding) := by
  induction h with
  | refl =>
      unfold Draft.legs
      rw [hplaced]
      exact .nil
  | @place d d' id before next last ih =>
      obtain ⟨t, cost, slot, sent, -, hplaces⟩ := places_of_place last
      have hslot : slot.IsNumeric :=
        hslots (t.id, slot) (hplaces.placed ▸ List.mem_append_right _ (List.mem_singleton_self _))
      have hbefore : ∀ entry ∈ d.placed, entry.2.IsNumeric := fun entry he =>
        hslots entry (hplaces.placed ▸ List.mem_append_left _ he)
      have hnum' := hplaces.isNumeric_before hnum
      have haccounted := before.accounted hplaced htimeline
      have hsorted := before.sorted_timeline htimeline hnum'
      have hsend := hplaces.clear_send haccounted hnum hsorted hslot
      have hreceive := hplaces.clear_receive haccounted hnum hsorted hslot
      rw [hplaces.legs, hplaces.padding, List.pairwise_append]
      refine ⟨ih hbefore hnum', ?_, fun earlier he later hl => ?_⟩
      · exact List.pairwise_pair.mpr (hreceive _ List.mem_cons_self)
      · cases List.mem_cons.mp hl with
        | inl heq =>
            rw [heq]
            exact hsend earlier he
        | inr hl =>
            rw [List.mem_singleton.mp hl]
            exact hreceive earlier (List.mem_cons_of_mem _ he)

end Draft

/-! ## exact times -/

/-- In exact times a leg that keeps clear of another is a padding apart from it. -/
theorem Interval.Clear.apart {margin : Rat} {x y : Interval Rat} (h : Interval.Clear margin x y) :
    x.stop ≤ y.start - margin ∨ y.stop ≤ x.start - margin := by
  have h : x.stop + margin ≤ y.start ∨ y.stop ≤ x.start - margin := h
  cases h with
  | inl h => exact .inl (le_sub_iff_add_le.mpr h)
  | inr h => exact .inr h

/-- Of two legs that are a padding apart only the paddings overlap, for one padding at most. -/
theorem overlap_le_of_apart {margin : Rat} {x y : Interval Rat} (hstart : x.start ≤ y.start)
    (h : x.stop ≤ y.start + margin ∨ y.stop ≤ x.start + margin) :
    smaller x.stop y.stop - y.start ≤ margin := by
  have hstop : smaller x.stop y.stop ≤ y.start + margin := by
    unfold smaller
    cases h with
    | inl h =>
        split
        · next hlt => exact hlt.le.trans h
        · exact h
    | inr h =>
        have hy : y.stop ≤ y.start + margin := by linarith
        split
        · exact hy
        · next hlt => exact (not_lt.mp hlt).trans hy
  rw [add_comm] at hstop
  exact sub_le_iff_le_add.mpr hstop

namespace Plan

variable {w : Workflow} {hosts : List Host} {bound : Int} {padding : Quantity}

/-- In a plan without NaN a leg keeps clear of all legs that were placed before it. -/
theorem Planned.pairwise_clear [Ordered τ] {platform : Platform τ} {first last : Draft τ}
    {p : Plan τ} (h : Planned w hosts padding platform first last p) (hslots : p.HasNumericSlots)
    (hnum : p.timeline.IsNumeric) :
    (p.legs last.transferOf).Pairwise (Interval.Clear last.padding) := by
  rw [h.timeline] at hnum
  rw [h.legs_eq]
  refine h.reaches.pairwise_clear h.starts.placed h.starts.timeline (fun entry he => ?_) hnum
  exact hslots entry (h.perm_entries.mem_iff.mpr he)

/-- No padding is negative. -/
theorem Terms.margin_nonneg {transfer : Int → Rat} {margin : Rat}
    (h : Terms w hosts padding transfer margin) : 0 ≤ margin := by
  cases h.margin with
  | inl hmargin =>
      refine Quantity.toRat_nonneg h.nonneg ?_
      unfold timeOf at hmargin
      split at hmargin
      · next t ht =>
          rw [← Except.ok.inj hmargin]
          exact ht
      · cases hmargin
  | inr hmargin =>
      rw [hmargin.2]

/-- In exact times no two reservations overlap for longer than one padding. -/
theorem Planned.maxOverlap_le {platform : Platform Rat} {first last : Draft Rat} {p : Plan Rat}
    (h : Planned w hosts padding platform first last p)
    (hapart : (p.legs last.transferOf).Pairwise fun x y =>
      x.stop ≤ y.start - last.padding ∨ y.stop ≤ x.start - last.padding) :
    p.timeline.maxOverlap ≤ last.padding := by
  have hreserved : p.timeline.intervals.Pairwise fun x y =>
      x.stop ≤ y.start + last.padding ∨ y.stop ≤ x.start + last.padding := by
    rw [h.perm_timeline.pairwise_iff fun h => h.symm, List.pairwise_map]
    refine hapart.imp fun {x y} hxy => ?_
    unfold Interval.padded
    dsimp only
    rw [sub_add_cancel, sub_add_cancel, ← le_sub_iff_add_le, ← le_sub_iff_add_le]
    exact hxy
  have hstart := Timeline.pairwise_start p.timeline.isNumeric_rat
    (h.sorted_timeline p.timeline.isNumeric_rat)
  refine Timeline.maxOverlap_le h.terms.margin_nonneg ?_
  refine (hstart.and hreserved).imp fun hxy => ?_
  exact overlap_le_of_apart hxy.1 hxy.2

/-- **Exclusion**: a plan uses the link in two legs for every task, and in doubles that
are not NaN each leg keeps clear of the padding of those placed before it.  In exact
times any two legs are one padding apart, and reservations overlap for one padding at most. -/
theorem exclusive_of_build :
    (∀ p : Plan Float, build Float w hosts bound padding = .ok p → p.HasNumericSlots →
      p.timeline.IsNumeric → ∃ transfer margin, Terms w hosts padding transfer margin ∧
        p.UsesLink w transfer ∧ (p.legs transfer).Pairwise (Interval.Clear margin)) ∧
    (∀ p : Plan Rat, build Rat w hosts bound padding = .ok p →
      ∃ transfer margin, Terms w hosts padding transfer margin ∧ p.UsesLink w transfer ∧
        ((p.legs transfer).Pairwise fun x y =>
          x.stop ≤ y.start - margin ∨ y.stop ≤ x.start - margin) ∧
        p.timeline.maxOverlap ≤ margin ∧ (margin = 0 → p.timeline.maxOverlap = 0)) := by
  constructor
  · intro p h hslots hnum
    obtain ⟨platform, first, last, hplanned⟩ := planned_of_build h
    exact ⟨last.transferOf, last.padding, hplanned.terms, hplanned.usesLink,
      hplanned.pairwise_clear hslots hnum⟩
  · intro p h
    obtain ⟨platform, first, last, hplanned⟩ := planned_of_build h
    have hapart := (hplanned.pairwise_clear p.hasNumericSlots_rat p.timeline.isNumeric_rat).imp
      Interval.Clear.apart
    have hoverlap := hplanned.maxOverlap_le hapart
    refine ⟨last.transferOf, last.padding, hplanned.terms, hplanned.usesLink, hapart, hoverlap,
      fun hzero => ?_⟩
    rw [hzero] at hoverlap
    exact le_antisymm hoverlap p.timeline.zero_le_maxOverlap

/-- Around a cycle as well, with a padding of one second on both sides. -/
theorem exclusive_loop :
    (build Float loop [loopHost] 3 1 = .ok (loopPlan Float) ∧
      (loopPlan Float).HasNumericSlots ∧ (loopPlan Float).timeline.IsNumeric ∧
      ∃ transfer margin, Terms loop [loopHost] 1 transfer margin ∧
        ((loopPlan Float).legs transfer).Pairwise (Interval.Clear margin)) ∧
    build Rat loop [loopHost] 3 1 = .ok (loopPlan Rat) ∧
      (loopPlan Rat).timeline.maxOverlap ≤ 1 := by
  have hslots : (loopPlan Float).HasNumericSlots := by decide +kernel
  have hnum : (loopPlan Float).timeline.IsNumeric := by decide +kernel
  constructor
  · obtain ⟨transfer, margin, hterms, -, hclear⟩ :=
      exclusive_of_build.1 (loopPlan Float) build_loop_float hslots hnum
    exact ⟨build_loop_float, hslots, hnum, transfer, margin, hterms, hclear⟩
  · obtain ⟨transfer, margin, hterms, -, -, hoverlap, -⟩ :=
      exclusive_of_build.2 (loopPlan Rat) build_loop_rat
    have hmargin : margin = 1 := by
      cases hterms.margin with
      | inl h => exact (Except.ok.inj h).symm
      | inr h => exact absurd h.1 (by decide)
    rw [hmargin] at hoverlap
    exact ⟨build_loop_rat, hoverlap⟩

end Plan

end SharedLink
