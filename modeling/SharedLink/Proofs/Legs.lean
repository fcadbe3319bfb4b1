import SharedLink.Proofs.Entries
import SharedLink.Proofs.Gaps

/-!
# SharedLink.Proofs.Legs

The legs of the placed tasks, and what is reserved for them.

Every task uses the link twice for the same time, once to be sent and once to be
received.  The reservations are these legs with the padding on both sides, and
nothing else.

* `Plan.Terms` — the transfer times and the padding that a plan is made with;
* `Plan.legs` — the legs of a plan, without padding, in the order of their placement;
* `Planned.perm_timeline` — the reservations of a plan are its legs, padded;
* `Planned.sorted_timeline` — they are in order if none is NaN.
-/

namespace SharedLink

open Timescale

variable {τ : Type} [Timescale τ]

/-- An interval with a margin on both sides. -/
def Interval.padded (i : Interval τ) (margin : τ) : Interval τ :=
  ⟨i.start - margin, i.stop + margin⟩

/-- The two uses of the link, each for the time of one transfer. -/
def Slot.legs (slot : Slot τ) (transfer : τ) : List (Interval τ) :=
  [⟨slot.sendStart, slot.sendStart + transfer⟩, ⟨slot.receiveStart, slot.receiveStart + transfer⟩]

namespace Draft

/-- The time of one transfer of a task. -/
def transferOf (d : Draft τ) (id : Int) : τ := ((d.costs.lookup id).map (·.transfer)).getD 0

/-- The legs of all placed tasks, in the order of their placement. -/
def legs (d : Draft τ) : List (Interval τ) :=
  d.placed.flatMap fun entry => entry.2.legs (d.transferOf entry.1)

/-- What is reserved is the legs, padded, and every output takes one transfer. -/
structure Accounted (d : Draft τ) : Prop where
  reserved : d.timeline.intervals.Perm (d.legs.map (·.padded d.padding))
  received : ∀ entry ∈ d.placed,
    entry.2.receiveEnd = entry.2.receiveStart + d.transferOf entry.1

/-- Every placed task has two legs. -/
theorem length_legs (d : Draft τ) : d.legs.length = 2 * d.placed.length := by
  unfold legs
  induction d.placed with
  | nil => rfl
  | cons entry rest ih =>
      rw [List.flatMap_cons, List.length_append, ih, List.length_cons]
      show 2 + 2 * rest.length = 2 * (rest.length + 1)
      omega

/-- A draft starts with the transfer times of the tasks on its platform. -/
theorem Starts.transferTime_eq {w : Workflow} {platform : Platform τ} {padding : Quantity}
    {d : Draft τ} (h : Starts w platform padding d) {t : Task} (ht : t ∈ w.tasks) :
    platform.transferTime t = .ok (d.transferOf t.id) := by
  obtain ⟨cost, hlookup, hcost⟩ := h.cost_of_mem ht
  unfold Platform.cost at hcost
  simp only [bind_eq_ok_iff, pure_eq_ok_iff] at hcost
  obtain ⟨comp, -, transfer, htransfer, rfl⟩ := hcost
  unfold transferOf
  rw [hlookup]
  exact htransfer

/-! ## one placement -/

section

variable {w : Workflow} {d d' : Draft τ} {t : Task} {cost : Cost τ} {slot : Slot τ}
  {sent : Timeline τ}

/-- A placement knows the time of a transfer. -/
theorem Places.transferOf (h : Places w d t cost slot sent d') :
    d.transferOf t.id = cost.transfer := by
  unfold Draft.transferOf
  rw [h.known]
  rfl

/-- A placement changes no transfer time. -/
theorem Places.transferOf_eq (h : Places w d t cost slot sent d') :
    d'.transferOf = d.transferOf := by
  unfold Draft.transferOf
  rw [h.costs]

/-- A placement adds two legs at the end. -/
theorem Places.legs (h : Places w d t cost slot sent d') :
    d'.legs = d.legs ++ slot.legs cost.transfer := by
  unfold Draft.legs
  rw [h.transferOf_eq, h.placed, List.flatMap_append, List.flatMap_singleton, h.transferOf]

/-- Between its reservations the timeline holds the padded send leg besides what it held. -/
theorem Places.perm_sent (h : Places w d t cost slot sent d') :
    sent.intervals.Perm
      (Interval.padded ⟨slot.sendStart, slot.sendStart + cost.transfer⟩ d.padding ::
        d.timeline.intervals) :=
  Timeline.perm_reserve h.send

/-- After its reservations it holds the padded receive leg as well. -/
theorem Places.perm_timeline (h : Places w d t cost slot sent d') :
    d'.timeline.intervals.Perm
      (Interval.padded ⟨slot.receiveStart, slot.receiveStart + cost.transfer⟩ d.padding ::
        sent.intervals) := by
  have hperm := Timeline.perm_reserve h.receive
  rw [h.receiveEnd] at hperm
  exact hperm

/-- A placement accounts for its reservations. -/
theorem Places.accounted (h : Places w d t cost slot sent d') (hd : d.Accounted) :
    d'.Accounted where
  reserved := by
    let send : Interval τ := ⟨slot.sendStart, slot.sendStart + cost.transfer⟩
    let receive : Interval τ := ⟨slot.receiveStart, slot.receiveStart + cost.transfer⟩
    rw [h.legs, h.padding, List.map_append]
    calc
      List.Perm d'.timeline.intervals (receive.padded d.padding :: sent.intervals) :=
          h.perm_timeline
      List.Perm _ (receive.padded d.padding :: send.padded d.padding :: d.timeline.intervals) :=
          h.perm_sent.cons _
      List.Perm _ (send.padded d.padding :: receive.padded d.padding :: d.timeline.intervals) :=
          .swap _ _ _
      List.Perm _ ([send, receive].map (·.padded d.padding) ++ d.legs.map (·.padded d.padding)) :=
          (hd.reserved.cons _).cons _
      List.Perm _ (d.legs.map (·.padded d.padding) ++ [send, receive].map (·.padded d.padding)) :=
          List.perm_append_comm
  received entry hentry := by
    rw [h.placed] at hentry
    rw [h.transferOf_eq]
    cases List.mem_append.mp hentry with
    | inl hold => exact hd.received entry hold
    | inr hnew =>
        rw [List.mem_singleton.mp hnew, h.transferOf]
        exact h.receiveEnd

/-- What is reserved before a placement is reserved after it. -/
theorem Places.mem_timeline (h : Places w d t cost slot sent d') {i : Interval τ}
    (hi : i ∈ d.timeline.intervals) : i ∈ sent.intervals ∧ i ∈ d'.timeline.intervals := by
  have hsent : i ∈ sent.intervals := h.perm_sent.mem_iff.mpr (List.mem_cons_of_mem _ hi)
  exact ⟨hsent, h.perm_timeline.mem_iff.mpr (List.mem_cons_of_mem _ hsent)⟩

/-- If no reservation is NaN after a placement, none was between its two legs. -/
theorem Places.isNumeric_sent (h : Places w d t cost slot sent d')
    (hnum : d'.timeline.IsNumeric) : sent.IsNumeric :=
  fun i hi => hnum i (h.perm_timeline.mem_iff.mpr (List.mem_cons_of_mem _ hi))

/-- Nor was any before it. -/
theorem Places.isNumeric_before (h : Places w d t cost slot sent d')
    (hnum : d'.timeline.IsNumeric) : d.timeline.IsNumeric :=
  fun i hi => hnum i (h.mem_timeline hi).2

/-- The first reservation keeps the order. -/
theorem Places.sorted_sent [Ordered τ] (h : Places w d t cost slot sent d')
    (hnum : d'.timeline.IsNumeric) (hsorted : Sorted Timeline.before d.timeline.intervals) :
    Sorted Timeline.before sent.intervals :=
  Timeline.sorted_reserve (h.isNumeric_sent hnum) hsorted h.send

/-- So does the second. -/
theorem Places.sorted_timeline [Ordered τ] (h : Places w d t cost slot sent d')
    (hnum : d'.timeline.IsNumeric) (hsorted : Sorted Timeline.before d.timeline.intervals) :
    Sorted Timeline.before d'.timeline.intervals :=
  Timeline.sorted_reserve hnum (h.sorted_sent hnum hsorted) h.receive

end

/-! ## placements in turn -/

section

variable {w : Workflow} {first d : Draft τ}

/-- Placing tasks changes neither the padding nor a transfer time. -/
theorem Reaches.steady (h : Reaches w first d) :
    d.padding = first.padding ∧ d.transferOf = first.transferOf := by
  induction h with
  | refl => exact ⟨rfl, rfl⟩
  | place before next last ih =>
      obtain ⟨t, cost, slot, sent, -, hplaces⟩ := places_of_place last
      exact ⟨hplaces.padding.trans ih.1, hplaces.transferOf_eq.trans ih.2⟩

/-- **Accounting**: from an empty draft on, all reservations are padded legs of placed tasks. -/
theorem Reaches.accounted (h : Reaches w first d) (hplaced : first.placed = [])
    (htimeline : first.timeline = .empty) : d.Accounted := by
  induction h with
  | refl =>
      constructor
      · unfold Draft.legs
        rw [hplaced, htimeline]
        exact .refl _
      · intro entry hentry
        rw [hplaced] at hentry
        cases hentry
  | place before next last ih =>
      obtain ⟨t, cost, slot, sent, -, hplaces⟩ := places_of_place last
      exact hplaces.accounted ih

/-- **Order**: reservations that are not NaN are kept in order. -/
theorem Reaches.sorted_timeline [Ordered τ] (h : Reaches w first d)
    (htimeline : first.timeline = .empty) (hnum : d.timeline.IsNumeric) :
    Sorted Timeline.before d.timeline.intervals := by
  induction h with
  | refl =>
      rw [htimeline]
      exact .nil
  | place before next last ih =>
      obtain ⟨t, cost, slot, sent, -, hplaces⟩ := places_of_place last
      exact hplaces.sorted_timeline hnum (ih (hplaces.isNumeric_before hnum))

end

end Draft

namespace Plan

/-- The times of a plan's transfers and the padding of its reservations, as they
follow from the arguments.  An empty workflow is planned with any padding, and with
none if the padding is no time. -/
structure Terms (w : Workflow) (hosts : List Host) (padding : Quantity) (transfer : Int → τ)
    (margin : τ) : Prop where
  nonneg : padding.isNegative = false
  transfer : ∃ platform, Platform.ofHosts τ hosts = .ok platform ∧
    ∀ t ∈ w.tasks, platform.transferTime t = .ok (transfer t.id)
  margin : timeOf τ padding = .ok margin ∨ w.tasks = [] ∧ margin = 0

/-- The legs of a plan without padding, in the order of their placement. -/
def legs (p : Plan τ) (transfer : Int → τ) : List (Interval τ) :=
  p.order.flatMap fun id =>
    match p.find? id with
    | some (slot, _) => slot.legs (transfer id)
    | none => []

/-- Every task is sent and received over the link for the same time. -/
structure UsesLink (p : Plan τ) (w : Workflow) (transfer : Int → τ) : Prop where
  legs : (p.legs transfer).length = 2 * w.tasks.length
  received : ∀ id slot rank, p.find? id = some (slot, rank) →
    slot.receiveEnd = slot.receiveStart + transfer id

variable {w : Workflow} {hosts : List Host} {padding : Quantity} {platform : Platform τ}
  {first last : Draft τ} {p : Plan τ}

theorem Planned.terms (h : Planned w hosts padding platform first last p) :
    Terms w hosts padding last.transferOf last.padding := by
  obtain ⟨hpadding, htransfer⟩ := h.reaches.steady
  rw [hpadding, htransfer]
  refine ⟨h.starts.nonneg, ⟨platform, h.hosts, fun t ht => ?_⟩, h.starts.padding⟩
  exact h.starts.transferTime_eq ht

/-- The legs of a plan are those of its draft. -/
theorem Planned.legs_eq (h : Planned w hosts padding platform first last p) :
    p.legs last.transferOf = last.legs := by
  unfold Plan.legs Draft.legs
  rw [h.order]
  unfold Draft.order
  rw [List.flatMap_map]
  refine List.flatMap_congr fun entry hentry => ?_
  obtain ⟨id, slot⟩ := entry
  obtain ⟨rank, hfind⟩ := h.mem_placed_iff.mp hentry
  simp only [hfind]

/-- Every task has two legs. -/
theorem Planned.length_legs (h : Planned w hosts padding platform first last p) :
    (p.legs last.transferOf).length = 2 * w.tasks.length := by
  have horder : last.placed.length = w.tasks.length := by
    have hlength := h.perm_order.length_eq
    rw [h.order] at hlength
    unfold Draft.order Workflow.ids at hlength
    rwa [List.length_map, List.length_map] at hlength
  rw [h.legs_eq, Draft.length_legs, horder]

/-- **Reservations**: what a plan has reserved is its legs, padded, and nothing else. -/
theorem Planned.perm_timeline (h : Planned w hosts padding platform first last p) :
    p.timeline.intervals.Perm ((p.legs last.transferOf).map (·.padded last.padding)) := by
  rw [h.timeline, h.legs_eq]
  exact (h.reaches.accounted h.starts.placed h.starts.timeline).reserved

/-- An output is received for the time of one transfer. -/
theorem Planned.receiveEnd_eq (h : Planned w hosts padding platform first last p) {id : Int}
    {slot : Slot τ} {rank : Nat} (hfind : p.find? id = some (slot, rank)) :
    slot.receiveEnd = slot.receiveStart + last.transferOf id :=
  (h.reaches.accounted h.starts.placed h.starts.timeline).received (id, slot)
    (h.mem_placed_iff.mpr ⟨rank, hfind⟩)

theorem Planned.usesLink (h : Planned w hosts padding platform first last p) :
    p.UsesLink w last.transferOf where
  legs := h.length_legs
  received _ _ _ := h.receiveEnd_eq

/-- The reservations of a plan are in order if none is NaN. -/
theorem Planned.sorted_timeline [Ordered τ]
    (h : Planned w hosts padding platform first last p) (hnum : p.timeline.IsNumeric) :
    Sorted Timeline.before p.timeline.intervals := by
  rw [h.timeline] at hnum ⊢
  exact h.reaches.sorted_timeline h.starts.timeline hnum

end Plan

end SharedLink
