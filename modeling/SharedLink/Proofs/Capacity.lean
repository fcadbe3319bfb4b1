import SharedLink.Proofs.Exclusion
import SharedLink.Proofs.Priority

/-!
# SharedLink.Proofs.Capacity

No plan is shorter than what goes over the link.

In exact arithmetic, if no length is negative, every task is sent at or behind zero and
received behind its computation, so that all legs lie between zero and the makespan.
Any two of them are one padding apart, whichever was placed first; put in the order of
their starts, and of their stops where those are equal, they form a row with one padding
between neighbours.  The transfers and the paddings in between therefore fit into the
makespan, whatever cycles the workflow has.

* `exists_row` — intervals that are pairwise apart can be put in a row;
* `sum_length_le_of_row` — a row takes no more room than there is;
* `Planned.within_makespan` — all legs lie between zero and the makespan;
* `capacity_of_build` — the makespan of a plan is at least the sum over a row of its legs.
-/

namespace SharedLink

open Timescale

/-! ## rows of intervals -/

namespace Interval

/-- How long an interval is. -/
def length (i : Interval Rat) : Rat := i.stop - i.start

/-- One interval starts a margin or more behind the end of another. -/
def Ahead (margin : Rat) (x y : Interval Rat) : Prop := x.stop + margin ≤ y.start

/-- Of two intervals that are apart the one that is sorted first is ahead.  If they start
together then without a margin, and the first is empty. -/
theorem ahead_of_apart {margin : Rat} {x y : Interval Rat} (hy : y.start ≤ y.stop)
    (hmargin : 0 ≤ margin) (hbefore : Timeline.before y x = false)
    (hapart : x.stop ≤ y.start - margin ∨ y.stop ≤ x.start - margin) : Ahead margin x y := by
  obtain ⟨hstart, hstop⟩ :=
    (Timeline.before_eq_false_iff x.isNumeric_rat y.isNumeric_rat).mp hbefore
  unfold Ahead
  cases hapart with
  | inl h => linarith
  | inr h =>
      have hback : y.start ≤ x.start := by linarith
      linarith [hstop hback]

/-- Intervals that are pairwise apart can be put in a row. -/
theorem exists_row {margin : Rat} {is : List (Interval Rat)} (hmargin : 0 ≤ margin)
    (hordered : ∀ i ∈ is, i.start ≤ i.stop)
    (hapart : is.Pairwise fun x y => x.stop ≤ y.start - margin ∨ y.stop ≤ x.start - margin) :
    ∃ row : List (Interval Rat), row.Perm is ∧ row.Pairwise (Ahead margin) := by
  have hperm : (sortBy Timeline.before is).Perm is := perm_sortBy _ _
  have hsorted : Sorted Timeline.before (sortBy Timeline.before is) :=
    sorted_sortBy Timeline.strictWeakOn_before fun i _ => i.isNumeric_rat
  refine ⟨_, hperm, List.Pairwise.imp_of_mem ?_
    (hsorted.and ((hperm.pairwise_iff fun h => h.symm).mpr hapart))⟩
  intro x y _ hy h
  exact ahead_of_apart (hordered y (hperm.mem_iff.mp hy)) hmargin h.1 h.2

/-- **Rows**: the intervals of a row and the margins between them fit where the row lies, since all
that follow the first one lie behind it and its margin. -/
theorem sum_length_le_of_row {margin low high : Rat} {row : List (Interval Rat)}
    (hne : row ≠ []) (hrow : row.Pairwise (Ahead margin)) (hlow : ∀ i ∈ row, low ≤ i.start)
    (hhigh : ∀ i ∈ row, i.stop ≤ high) :
    (row.map length).sum + (row.length - 1) * margin ≤ high - low := by
  induction row generalizing low with
  | nil => exact absurd rfl hne
  | cons i rest ih =>
      obtain ⟨hahead, hrest⟩ := List.pairwise_cons.mp hrow
      obtain ⟨hi, -⟩ := List.forall_mem_cons.mp hlow
      obtain ⟨hi', hhigh⟩ := List.forall_mem_cons.mp hhigh
      have hlength : i.length = i.stop - i.start := rfl
      rw [List.map_cons, List.sum_cons, List.length_cons, hlength]
      by_cases hempty : rest = []
      · rw [hempty]
        simp only [List.map_nil, List.sum_nil, List.length_nil]
        norm_num
        linarith
      · have hsum := ih hempty hrest hahead hhigh
        push_cast
        linarith

end Interval

/-! ## where the legs lie -/

namespace Draft

variable {w : Workflow} {first d d' : Draft Rat} {t : Task} {cost : Cost Rat} {slot : Slot Rat}
  {sent : Timeline Rat}

/-- A task is sent from zero on and received once it has been sent, and no transfer takes
less than no time. -/
structure Timely (d : Draft Rat) (entry : Int × Slot Rat) : Prop where
  transfer : 0 ≤ d.transferOf entry.1
  sendStart : 0 ≤ entry.2.sendStart
  receiveStart : entry.2.sendStart + d.transferOf entry.1 ≤ entry.2.receiveStart

/-- A task is not ready before zero if no parent ends before zero, not even where the end of
a parent is not known. -/
theorem readyAt_nonneg {endOf? : Int → Option Rat} (h : ∀ id time, endOf? id = some time → 0 ≤ time)
    (t : Task) : 0 ≤ readyAt endOf? t := by
  unfold readyAt
  cases t.parents with
  | nil => exact Rat.le_refl
  | cons parent rest =>
      have hend : 0 ≤ (endOf? parent).getD 0 := by
        cases hparent : endOf? parent with
        | none => exact Rat.le_refl
        | some time => exact h parent time hparent
      have hready : 0 ≤ (endOf? parent).getD 0 + readyDelay :=
        Rat.add_nonneg hend (Rat.le_of_lt Arithmetic.zero_lt_one)
      exact hready.trans (le_largest 0 (fun _ _ => Rat.le_refl) List.mem_cons_self)

/-- One placement: a task that costs no less than nothing is timely if those before it are. -/
theorem Places.timely (h : Places w d t cost slot sent d') (hcomp : 0 ≤ cost.comp)
    (htransfer : 0 ≤ cost.transfer) (haccounted : d.Accounted)
    (hplaced : ∀ entry ∈ d.placed, d.Timely entry) : d.Timely (t.id, slot) := by
  have hends (id : Int) (time : Rat) (hend : d.endOf? id = some time) : 0 ≤ time := by
    obtain ⟨pslot, hpslot, rfl⟩ := Option.map_eq_some_iff.mp hend
    have hmem := mem_of_slotOf? hpslot
    obtain ⟨hp, hstart, hreceive⟩ := hplaced _ hmem
    have hreceived := haccounted.received _ hmem
    dsimp only at hp hstart hreceive hreceived
    linarith
  have hready : 0 ≤ slot.sendStart :=
    (readyAt_nonneg hends t).trans (h.readyAt_le Rat.le_refl)
  have hgap : slot.sendStart + cost.transfer + cost.comp ≤ slot.receiveStart := by
    rw [h.receiveStart]
    exact Timeline.le_earliestGap Rat.le_refl
  refine ⟨?_, hready, ?_⟩
  · rw [h.transferOf]
    exact htransfer
  · rw [h.transferOf]
    dsimp only
    linarith

/-- **All placements** are timely. -/
theorem Reaches.timely (h : Reaches w first d) (hplaced : first.placed = [])
    (htimeline : first.timeline = .empty)
    (hcosts : ∀ t ∈ w.tasks, ∀ cost, first.costs.lookup t.id = some cost →
      0 ≤ cost.comp ∧ 0 ≤ cost.transfer) :
    d.costs = first.costs ∧ ∀ entry ∈ d.placed, d.Timely entry := by
  induction h with
  | refl => exact ⟨rfl, fun entry hentry => by simp [hplaced] at hentry⟩
  | @place d d' id before next last ih =>
      obtain ⟨t, cost, slot, sent, -, hplaces⟩ := places_of_place last
      obtain ⟨hsame, htimely⟩ := ih
      refine ⟨hplaces.costs.trans hsame, fun entry hentry => ?_⟩
      have hd : d.Timely entry := by
        rw [hplaces.placed] at hentry
        cases List.mem_append.mp hentry with
        | inl hold => exact htimely entry hold
        | inr hnew =>
            have hknown := hplaces.known
            rw [hsame] at hknown
            obtain ⟨hcomp, htransfer⟩ := hcosts t (List.mem_of_find?_eq_some hplaces.found) cost hknown
            rw [List.mem_singleton.mp hnew]
            exact hplaces.timely hcomp htransfer (before.accounted hplaced htimeline) htimely
      refine ⟨?_, hd.sendStart, ?_⟩
      · rw [hplaces.transferOf_eq]
        exact hd.transfer
      · rw [hplaces.transferOf_eq]
        exact hd.receiveStart

/-- The legs of all placed tasks last twice as long as their transfers. -/
theorem sum_length_legs (d : Draft Rat) :
    (d.legs.map Interval.length).sum = (d.order.map fun id => 2 * d.transferOf id).sum := by
  unfold legs order
  rw [List.map_flatMap, List.map_map]
  induction d.placed with
  | nil => rfl
  | cons entry rest ih =>
      rw [List.flatMap_cons, List.sum_append, ih, List.map_cons, List.sum_cons]
      congr 1
      simp only [Slot.legs, Interval.length, List.map_cons, List.map_nil, List.sum_cons,
        List.sum_nil, Function.comp]
      ring

end Draft

namespace Plan

variable {w : Workflow} {hosts : List Host} {padding : Quantity} {platform : Platform Rat}
  {first last : Draft Rat} {p : Plan Rat}

/-- **All legs** lie between zero and the makespan, and none stops before it starts. -/
theorem Planned.within_makespan (h : Planned w hosts padding platform first last p)
    (hlengths : ∀ t ∈ w.tasks, t.length.isNegative = false) :
    ∀ leg ∈ p.legs last.transferOf,
      0 ≤ leg.start ∧ leg.start ≤ leg.stop ∧ leg.stop ≤ p.makespan := by
  intro leg hleg
  rw [h.legs_eq] at hleg
  obtain ⟨⟨id, slot⟩, hentry, hleg⟩ := List.mem_flatMap.mp hleg
  obtain ⟨htransfer, hsend, hreceive⟩ := (h.reaches.timely h.starts.placed h.starts.timeline
    fun t ht cost => h.cost_nonneg hlengths ht).2 _ hentry
  obtain ⟨rank, hfind⟩ := h.mem_placed_iff.mp hentry
  have hend := h.receiveEnd_eq hfind
  have hmakespan := receiveEnd_le_makespan p.hasNumericSlots_rat hfind
  dsimp only at htransfer hsend hreceive
  simp only [Slot.legs, List.mem_cons, List.not_mem_nil, or_false] at hleg
  obtain rfl | rfl := hleg
  · exact ⟨hsend, by dsimp only; linarith, by dsimp only; linarith⟩
  · exact ⟨by dsimp only; linarith, by dsimp only; linarith, by dsimp only; linarith⟩

/-- The legs of a plan last twice as long as the transfers of all tasks. -/
theorem Planned.sum_length_legs (h : Planned w hosts padding platform first last p) :
    ((p.legs last.transferOf).map Interval.length).sum =
      (w.tasks.map fun t => 2 * last.transferOf t.id).sum := by
  have hperm : last.order.Perm w.ids := h.order ▸ h.perm_order
  rw [h.legs_eq, Draft.sum_length_legs, (hperm.map _).sum_eq, Workflow.ids, List.map_map]
  rfl

/-- **Capacity**: in exact arithmetic, if no length is negative, all legs of a plan lie between
zero and its makespan, and the makespan is at least the time of all transfers, two for each task,
with one padding between any two neighbours.  There may be cycles. -/
theorem capacity_of_build {bound : Int} (h : build Rat w hosts bound padding = .ok p)
    (hne : w.tasks ≠ []) (hlengths : ∀ t ∈ w.tasks, t.length.isNegative = false) :
    ∃ transfer margin, Terms w hosts padding transfer margin ∧ timeOf Rat padding = .ok margin ∧
      p.UsesLink w transfer ∧
      (∀ leg ∈ p.legs transfer, 0 ≤ leg.start ∧ leg.stop ≤ p.makespan) ∧
      (w.tasks.map fun t => 2 * transfer t.id).sum + (2 * w.tasks.length - 1) * margin ≤
        p.makespan := by
  obtain ⟨platform, first, last, hplanned⟩ := planned_of_build h
  have hterms := hplanned.terms
  have hmargin : timeOf Rat padding = .ok last.padding :=
    hterms.margin.resolve_right fun hempty => hne hempty.1
  have hwithin := hplanned.within_makespan hlengths
  refine ⟨last.transferOf, last.padding, hterms, hmargin, hplanned.usesLink,
    fun leg hleg => ⟨(hwithin leg hleg).1, (hwithin leg hleg).2.2⟩, ?_⟩
  have hapart := (hplanned.pairwise_clear p.hasNumericSlots_rat p.timeline.isNumeric_rat).imp
    Interval.Clear.apart
  obtain ⟨row, hperm, hrow⟩ := Interval.exists_row hterms.margin_nonneg
    (fun leg hleg => (hwithin leg hleg).2.1) hapart
  have hcount : row.length = 2 * w.tasks.length := by rw [hperm.length_eq, hplanned.length_legs]
  have hsome : row ≠ [] := by
    intro hnil
    rw [hnil] at hcount
    have := List.length_pos_iff.mpr hne
    simp only [List.length_nil] at hcount
    omega
  have hsum := Interval.sum_length_le_of_row hsome hrow
    (fun i hi => (hwithin i (hperm.mem_iff.mp hi)).1)
    (fun i hi => (hwithin i (hperm.mem_iff.mp hi)).2.2)
  rw [(hperm.map _).sum_eq, hplanned.sum_length_legs, hcount, sub_zero] at hsum
  push_cast at hsum
  exact hsum

/-- The transfers and the paddings of the workflow with a cycle fit into its plan. -/
theorem capacity_loop :
    build Rat loop [loopHost] 3 1 = .ok (loopPlan Rat) ∧ loop.tasks ≠ [] ∧
      (∀ t ∈ loop.tasks, t.length.isNegative = false) ∧
      ∃ transfer margin, Terms loop [loopHost] 1 transfer margin ∧
        (loop.tasks.map fun t => 2 * transfer t.id).sum + (2 * 3 - 1) * margin ≤
          (loopPlan Rat).makespan := by
  have hne : loop.tasks ≠ [] := by decide
  have hlengths : ∀ t ∈ loop.tasks, t.length.isNegative = false := by decide +kernel
  obtain ⟨transfer, margin, hterms, -, -, -, hsum⟩ := capacity_of_build build_loop_rat hne hlengths
  exact ⟨build_loop_rat, hne, hlengths, transfer, margin, hterms, hsum⟩

end Plan

end SharedLink
