import SharedLink.Proofs.Capacity
import SharedLink.Proofs.Trials
import SharedLink.Proofs.Vacancies

/-!
# SharedLink.Proofs.Serial

No plan is worse than doing everything in turn.

A task whose parents have all been received, and before which the link is taken up to
some time at the latest, finds the link free from the delay after that time on.  Its
own send leg, with the padding behind it, is then the last reservation, and so its
receive leg starts at the end of that padding or of the computation, whichever is
later.  In exact arithmetic every placement therefore takes the latest reservation
forward by the time of one task on its own at most, in whatever order the tasks are
placed and whether or not their parents come before them.

* `Cost.alone` — the time of one task on its own;
* `Draft.Within` — nothing is reserved or received behind a time;
* `Places.within` — one placement takes that time forward by one task;
* `serial_of_build` — a plan is no longer than all tasks one after the other.
-/

namespace SharedLink

open Timescale

/-- How long a task takes on its own: it waits for the delay, is sent, is computed or waits
for the padding of its send leg, is received, and keeps the link for another padding. -/
def Cost.alone (cost : Cost Rat) (margin : Rat) : Rat :=
  Draft.readyDelay + 2 * cost.transfer + max cost.comp margin + margin

/-! ## bounds from above -/

section

variable {τ : Type} [Timescale τ] {default bound : τ}

/-- The largest of a list is at or below what all of its times are at or below. -/
theorem Timescale.largest_le {ts : List τ} (hdefault : default ≤ bound)
    (h : ∀ t ∈ ts, t ≤ bound) : largest default ts ≤ bound := by
  by_cases hempty : ts = []
  · rw [hempty]
    exact hdefault
  · exact h _ (largest_mem default hempty)

/-- A gap is found no later than the last stop, unless it is sought from later on. -/
theorem Timeline.earliestGap_le [Arithmetic τ] {t : Timeline τ} {after d : τ} (hd : IsFinite d)
    (hafter : after ≤ bound) (hstops : ∀ i ∈ t.intervals, i.stop ≤ bound) :
    t.earliestGap after d ≤ bound :=
  gapFrom_le hd hafter fun i hi => .inl (hstops i hi)

end

namespace Draft

variable {w : Workflow} {first d d' : Draft Rat} {t : Task} {cost : Cost Rat} {slot : Slot Rat}
  {sent : Timeline Rat} {bound : Rat}

/-- The cost that a draft expects of a task. -/
def expected (d : Draft Rat) (id : Int) : Cost Rat := (d.costs.lookup id).getD ⟨0, 0⟩

/-- The delay is not negative. -/
theorem readyDelay_nonneg : (0 : Rat) ≤ readyDelay := Rat.le_of_lt Arithmetic.zero_lt_one

/-- A task is ready one delay after the last end at the latest, also where the end of a parent
is not known. -/
theorem readyAt_le_add {endOf? : Int → Option Rat} (hbound : 0 ≤ bound)
    (h : ∀ id time, endOf? id = some time → time ≤ bound) (t : Task) :
    readyAt endOf? t ≤ bound + readyDelay := by
  have hdelay := readyDelay_nonneg
  refine largest_le (by linarith) fun time htime => ?_
  obtain ⟨parent, -, rfl⟩ := List.mem_map.mp htime
  have hend : (endOf? parent).getD 0 ≤ bound := by
    cases hparent : endOf? parent with
    | none => exact hbound
    | some time => exact h parent time hparent
  linarith

/-- The link is taken up to some time at the latest, and every placed task has been received
by then. -/
structure Within (d : Draft Rat) (bound : Rat) : Prop where
  nonneg : 0 ≤ bound
  reserved : ∀ i ∈ d.timeline.intervals, i.stop ≤ bound
  received : ∀ entry ∈ d.placed, entry.2.receiveEnd ≤ bound

/-- Between its reservations the timeline stops with the padding of the send leg, besides where
it stopped. -/
theorem Places.stop_sent (h : Places w d t cost slot sent d') {i : Interval Rat}
    (hi : i ∈ sent.intervals) :
    i.stop = slot.sendStart + cost.transfer + d.padding ∨ i ∈ d.timeline.intervals := by
  refine (List.mem_cons.mp (h.perm_sent.mem_iff.mp hi)).imp_left fun hown => ?_
  rw [hown]
  rfl

/-- After its reservations it stops with the padding of the receive leg as well. -/
theorem Places.stop_timeline (h : Places w d t cost slot sent d') {i : Interval Rat}
    (hi : i ∈ d'.timeline.intervals) :
    i.stop = slot.receiveStart + cost.transfer + d.padding ∨ i ∈ sent.intervals := by
  refine (List.mem_cons.mp (h.perm_timeline.mem_iff.mp hi)).imp_left fun hown => ?_
  rw [hown]
  rfl

/-- The input is sent one delay behind that time at the latest. -/
theorem Places.sendStart_le (h : Places w d t cost slot sent d') (hd : d.Within bound) :
    slot.sendStart ≤ bound + readyDelay := by
  have hdelay := readyDelay_nonneg
  have hready : readyAt d.endOf? t ≤ bound + readyDelay := by
    refine readyAt_le_add hd.nonneg (fun id time hend => ?_) t
    obtain ⟨pslot, hpslot, rfl⟩ := Option.map_eq_some_iff.mp hend
    exact hd.received _ (mem_of_slotOf? hpslot)
  rw [h.sendStart]
  refine Timeline.earliestGap_le (isFinite_rat _) hready fun i hi => ?_
  linarith [hd.reserved i hi]

/-- The output is received once the task is computed and the send leg is padded, at the
latest, even where its own send leg is the last reservation. -/
theorem Places.receiveStart_le (h : Places w d t cost slot sent d') (hd : d.Within bound)
    (htransfer : 0 ≤ cost.transfer) (hpadding : 0 ≤ d.padding) :
    slot.receiveStart ≤ bound + readyDelay + cost.transfer + max cost.comp d.padding := by
  have hdelay := readyDelay_nonneg
  have hsend := h.sendStart_le hd
  have hcomp : cost.comp ≤ max cost.comp d.padding := le_max_left _ _
  have hpadded : d.padding ≤ max cost.comp d.padding := le_max_right _ _
  rw [h.receiveStart]
  refine Timeline.earliestGap_le (isFinite_rat _) (by linarith) fun i hi => ?_
  cases h.stop_sent hi with
  | inl hown => linarith
  | inr hold => linarith [hd.reserved i hold]

/-- **One placement** takes the latest reservation forward by one task on its own at most. -/
theorem Places.within (h : Places w d t cost slot sent d') (hd : d.Within bound)
    (htransfer : 0 ≤ cost.transfer) (hpadding : 0 ≤ d.padding) :
    d'.Within (bound + cost.alone d.padding) := by
  have hdelay := readyDelay_nonneg
  have hsend := h.sendStart_le hd
  have hreceive := h.receiveStart_le hd htransfer hpadding
  have hpadded : d.padding ≤ max cost.comp d.padding := le_max_right _ _
  have halone : cost.alone d.padding =
      readyDelay + 2 * cost.transfer + max cost.comp d.padding + d.padding := rfl
  have hbound : bound ≤ bound + cost.alone d.padding := by linarith
  have hnonneg := hd.nonneg
  refine ⟨by linarith, fun i hi => ?_, fun entry hentry => ?_⟩
  · cases h.stop_timeline hi with
    | inl hown => linarith
    | inr hi =>
        cases h.stop_sent hi with
        | inl hown => linarith
        | inr hold => exact (hd.reserved i hold).trans hbound
  · rw [h.placed] at hentry
    cases List.mem_append.mp hentry with
    | inl hold => exact (hd.received entry hold).trans hbound
    | inr hnew =>
        rw [List.mem_singleton.mp hnew, h.receiveEnd]
        linarith

/-- **All placements** take it forward by all tasks on their own at most. -/
theorem Reaches.within (h : Reaches w first d) (hplaced : first.placed = [])
    (htimeline : first.timeline = .empty) (hpadding : 0 ≤ first.padding)
    (hcosts : ∀ id cost, first.costs.lookup id = some cost → 0 ≤ cost.transfer) :
    d.padding = first.padding ∧ d.costs = first.costs ∧
      d.Within (d.order.map fun id => (first.expected id).alone first.padding).sum := by
  induction h with
  | refl =>
      refine ⟨rfl, rfl, ?_, fun i hi => ?_, fun entry hentry => ?_⟩
      · simp [order, hplaced]
      · rw [htimeline] at hi
        cases hi
      · rw [hplaced] at hentry
        cases hentry
  | @place d d' id before next last ih =>
      obtain ⟨t, cost, slot, sent, rfl, hplaces⟩ := places_of_place last
      obtain ⟨hsame, hcost, hwithin⟩ := ih
      have hknown : first.costs.lookup t.id = some cost := hcost ▸ hplaces.known
      have hexpected : first.expected t.id = cost := by
        unfold expected
        rw [hknown]
        rfl
      refine ⟨hplaces.padding.trans hsame, hplaces.costs.trans hcost, ?_⟩
      rw [order_place last, List.map_append, List.sum_append, List.map_singleton,
        List.sum_singleton, hexpected, ← hsame]
      rw [← hsame] at hwithin hpadding
      exact hplaces.within hwithin (hcosts t.id cost hknown) hpadding

end Draft

namespace Plan

variable {w : Workflow} {hosts : List Host} {padding : Quantity} {platform : Platform Rat}
  {first last : Draft Rat} {p : Plan Rat}

/-- The costs of the tasks and the padding of the reservations, as they follow from the
arguments.  An empty workflow may have any padding. -/
structure Expects (w : Workflow) (hosts : List Host) (padding : Quantity) (cost : Int → Cost Rat)
    (margin : Rat) : Prop where
  cost : ∃ platform, Platform.ofHosts Rat hosts = .ok platform ∧
    ∀ t ∈ w.tasks, platform.cost t = .ok (cost t.id)
  margin : timeOf Rat padding = .ok margin ∨ w.tasks = []

/-- How long all tasks take if each of them is done on its own, one after the other. -/
def serialTime (w : Workflow) (cost : Int → Cost Rat) (margin : Rat) : Rat :=
  (w.tasks.map fun t => (cost t.id).alone margin).sum

theorem Planned.expects (h : Planned w hosts padding platform first last p) :
    Expects w hosts padding first.expected first.padding where
  cost := by
    refine ⟨platform, h.hosts, fun t ht => ?_⟩
    obtain ⟨cost, hlookup, hcost⟩ := h.starts.cost_of_mem ht
    unfold Draft.expected
    rw [hlookup]
    exact hcost
  margin := h.starts.padding.imp_right And.left

/-- The draft of a plan keeps within the time of all tasks in turn. -/
theorem Planned.within (h : Planned w hosts padding platform first last p) :
    last.Within (serialTime w first.expected first.padding) := by
  have hpadding : 0 ≤ first.padding := not_lt.mp h.starts.padding_nonneg
  obtain ⟨-, -, hwithin⟩ := h.reaches.within h.starts.placed h.starts.timeline hpadding
    fun id cost hcost => not_lt.mp (h.starts.transfer_nonneg hcost)
  have hperm : last.order.Perm w.ids := h.order ▸ h.perm_order
  rw [(hperm.map _).sum_eq, Workflow.ids, List.map_map] at hwithin
  exact hwithin

/-- **No plan is worse than doing everything in turn**: in exact arithmetic a plan ends, and
releases the link, no later than all tasks would one after the other, each of them with the
delay, two transfers, its computation or the padding, whichever is longer, and another padding.
There may be cycles. -/
theorem serial_of_build {bound : Int} (h : build Rat w hosts bound padding = .ok p) :
    ∃ cost margin, Expects w hosts padding cost margin ∧ p.makespan ≤ serialTime w cost margin ∧
      ∀ i ∈ p.timeline.intervals, i.stop ≤ serialTime w cost margin := by
  obtain ⟨platform, first, last, hplanned⟩ := planned_of_build h
  have hwithin := hplanned.within
  refine ⟨first.expected, first.padding, hplanned.expects, ?_, fun i hi => ?_⟩
  · refine largest_le hwithin.nonneg fun time htime => ?_
    obtain ⟨entry, hentry, rfl⟩ := List.mem_map.mp htime
    exact hwithin.received entry (hplanned.perm_entries.mem_iff.mp hentry)
  · rw [hplanned.timeline] at hi
    exact hwithin.reserved i hi

/-- The tasks of the workflow with a cycle take six, five and three seconds in turn, and its
plan is no longer. -/
theorem serial_loop :
    build Rat loop [loopHost] 3 1 = .ok (loopPlan Rat) ∧
      ∃ cost margin, Expects loop [loopHost] 1 cost margin ∧ serialTime loop cost margin = 14 ∧
        (loopPlan Rat).makespan ≤ 14 ∧ ∀ i ∈ (loopPlan Rat).timeline.intervals, i.stop ≤ 14 := by
  obtain ⟨cost, margin, hexpects, hmakespan, hstops⟩ := serial_of_build build_loop_rat
  have hmargin : margin = 1 := by
    cases hexpects.margin with
    | inl h => exact (Except.ok.inj h).symm
    | inr h => cases h
  have hcosts : loop.tasks.map (fun t => cost t.id) = [⟨2, 1⟩, ⟨3, 0⟩, ⟨1, 0⟩] := by
    obtain ⟨platform, hhosts, hcost⟩ := hexpects.cost
    have hall : (Platform.ofHosts Rat [loopHost]).bind (loop.tasks.mapM ·.cost) =
        .ok [⟨2, 1⟩, ⟨3, 0⟩, ⟨1, 0⟩] := by decide +kernel
    rw [hhosts] at hall
    exact Except.ok.inj ((mapM_eq_ok_map hcost).symm.trans hall)
  have htime : serialTime loop cost margin = 14 := by
    have hparts : serialTime loop cost margin =
        ((loop.tasks.map fun t => cost t.id).map (Cost.alone · margin)).sum := by
      rw [List.map_map]
      rfl
    rw [hparts, hcosts, hmargin]
    decide +kernel
  rw [htime] at hmakespan hstops
  exact ⟨build_loop_rat, cost, margin, hexpects, htime, hmakespan, hstops⟩

end Plan

end SharedLink
