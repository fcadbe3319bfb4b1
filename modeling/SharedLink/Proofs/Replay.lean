import SharedLink.Proofs.Entries
import SharedLink.Proofs.Signs

/-!
# SharedLink.Proofs.Replay

A plan can be replayed from its order alone.

Planning places tasks for good while it tries others on copies, but a trial of the
whole order from an empty draft fits every task just as planning did: it sees the
same reservations, and the same ends of the parents that were placed before.  So
the times of a plan depend on its order and not on how the order was found.

* `Reaches.placeAll` — placing the order again gives the same draft;
* `trialEnds_of_placeAll`, `trial_of_placeAll` — a trial gives the ends that placing does;
* `Reaches.plain` — no end is a negative zero, so the latest one does not depend
  on the order in which ends are compared;
* `replay_of_build` — a plan is what its order comes to.
-/

namespace SharedLink

open Timescale

variable {τ : Type} [Timescale τ]

namespace Draft

variable {w : Workflow} {first last d d' : Draft τ}

/-! ## placing again -/

/-- **Placing again**: from an empty draft on, the order of a draft leads to that draft. -/
theorem Reaches.placeAll (h : Reaches w first d) (hempty : first.placed = []) :
    first.placeAll w d.order = (d, none) := by
  induction h with
  | refl =>
      unfold order
      rw [hempty]
      rfl
  | place before next last ih =>
      rw [order_place last, placeAll_append ih, Draft.placeAll, last]
      rfl

/-! ## trying the same order -/

/-- The ends of all placed tasks, in the order of their placement. -/
def ends (d : Draft τ) : List (Int × τ) := d.placed.map fun entry => (entry.1, entry.2.receiveEnd)

omit [Timescale τ] in
/-- The end of a task is among them. -/
theorem lookup_ends (d : Draft τ) (id : Int) : d.ends.lookup id = d.endOf? id := by
  unfold ends endOf? slotOf?
  induction d.placed with
  | nil => rfl
  | cons entry rest ih =>
      rw [List.map_cons, List.lookup_cons, List.lookup_cons, ih]
      cases id == entry.1 <;> rfl

omit [Timescale τ] in
/-- A task that has no end yet gets one behind all others. -/
theorem note_of_not_mem {id : Int} {t : τ} {ends : List (Int × τ)} (h : id ∉ ends.map (·.1)) :
    note id t ends = ends ++ [(id, t)] := by
  induction ends with
  | nil => rfl
  | cons entry rest ih =>
      rw [List.map_cons, List.mem_cons, not_or] at h
      unfold note
      rw [if_neg (Ne.symm h.1), ih h.2, List.cons_append]

omit [Timescale τ] in
theorem keys_ends (d : Draft τ) : d.ends.map (·.1) = d.order := by
  unfold ends order
  rw [List.map_map]
  rfl

omit [Timescale τ] in
/-- Where no task has two ends, they can be looked up in two parts in either order. -/
theorem lookup_append_comm {xs ys : List (Int × τ)} (hnodup : ((xs ++ ys).map (·.1)).Nodup)
    (id : Int) : (xs ++ ys).lookup id = (ys.lookup id).or (xs.lookup id) := by
  rw [List.lookup_append]
  cases hx : xs.lookup id with
  | none => rw [Option.none_or, Option.or_none]
  | some t =>
      obtain ⟨front, back, hsplit, -⟩ := List.lookup_eq_some_iff.mp hx
      have hmem : id ∈ xs.map (·.1) := by
        rw [hsplit, List.map_append]
        exact List.mem_append_right _ List.mem_cons_self
      have hy : ys.lookup id = none := by
        rw [List.lookup_eq_none_iff]
        intro entry hentry
        rw [List.map_append, List.nodup_append] at hnodup
        exact bne_iff_ne.mpr (hnodup.2.2 id hmem entry.1 (List.mem_map_of_mem hentry))
      rw [hy, Option.some_or, Option.none_or]

/-- Fitting a task depends on a draft by its costs and its padding only. -/
theorem fit_congr (hcosts : d.costs = d'.costs) (hpadding : d.padding = d'.padding)
    (endOf? : Int → Option τ) (id : Int) (line : Timeline τ) :
    d.fit w endOf? id line = d'.fit w endOf? id line := by
  unfold fit costOf
  rw [hcosts, hpadding]

/-- **Trying again**: tasks that are tried where others were placed end as if they were placed;
what is noted are the ends behind those of the draft that they are tried on. -/
theorem trialEnds_of_placeAll {rest : List Int} {noted : List (Int × τ)}
    (hcosts : d.costs = first.costs) (hpadding : d.padding = first.padding)
    (hends : d.ends = first.ends ++ noted) (hnodup : (d.order ++ rest).Nodup)
    (h : d.placeAll w rest = (last, none)) :
    ∃ noted', last.ends = first.ends ++ noted' ∧
      first.trialEnds w rest d.timeline noted = .ok noted' := by
  induction rest generalizing d noted with
  | nil =>
      obtain ⟨rfl, -⟩ := Prod.mk.inj h
      exact ⟨noted, hends, rfl⟩
  | cons id rest ih =>
      obtain ⟨next, hplace, hrest⟩ := placeAll_cons_iff.mp h
      obtain ⟨t, cost, slot', sent, -, hplaces⟩ := places_of_place hplace
      obtain ⟨⟨slot, line⟩, hfit, hnext⟩ := bind_eq_ok_iff.mp hplace
      have hnext : { d with timeline := line, placed := d.placed ++ [(id, slot)] } = next :=
        Except.ok.inj hnext
      have hkeys : d.order = first.ends.map (·.1) ++ noted.map (·.1) := by
        rw [← keys_ends, hends, List.map_append]
      have hlookup : (fun parent => (noted.lookup parent).or (first.endOf? parent)) =
          d.endOf? := by
        funext parent
        rw [← lookup_ends, ← lookup_ends, hends, lookup_append_comm]
        rw [List.map_append, ← hkeys]
        exact (List.nodup_append.mp hnodup).1
      have hnew : id ∉ noted.map (·.1) := by
        intro hmem
        have hplaced : id ∈ d.order := by
          rw [hkeys]
          exact List.mem_append_right _ hmem
        exact (List.nodup_append.mp hnodup).2.2 id hplaced id List.mem_cons_self rfl
      have hline : line = next.timeline := by rw [← hnext]
      have hends' : next.ends = first.ends ++ (noted ++ [(id, slot.receiveEnd)]) := by
        rw [← hnext, ← List.append_assoc, ← hends]
        unfold ends
        rw [List.map_append]
        rfl
      have horder : next.order ++ rest = d.order ++ id :: rest := by
        rw [order_place hplace, List.append_assoc, List.singleton_append]
      obtain ⟨noted', hlast, htrial⟩ := ih (hplaces.costs.trans hcosts)
        (hplaces.padding.trans hpadding) hends' (horder ▸ hnodup) hrest
      refine ⟨noted', hlast, ?_⟩
      unfold trialEnds
      rw [hlookup, fit_congr hcosts.symm hpadding.symm, hfit]
      change first.trialEnds w rest line (note id slot.receiveEnd noted) = .ok noted'
      rw [note_of_not_mem hnew, hline, htrial]

/-- A trial gives the latest of the ends that placing the same tasks adds. -/
theorem trial_of_placeAll {ids : List Int} (hnodup : (d.order ++ ids).Nodup)
    (h : d.placeAll w ids = (last, none)) :
    ∃ noted, last.ends = d.ends ++ noted ∧
      d.trial w ids = .ok (largest 0 (noted.map (·.2))) := by
  obtain ⟨noted, hends, htrial⟩ :=
    trialEnds_of_placeAll rfl rfl (List.append_nil d.ends).symm hnodup h
  exact ⟨noted, hends, bind_eq_ok_iff.mpr ⟨noted, htrial, rfl⟩⟩

/-! ## zeros -/

/-- No reservation stops at a negative zero, and no task ends at one. -/
structure Plain (d : Draft τ) : Prop where
  stops : ∀ i ∈ d.timeline.intervals, IsPlain i.stop
  ends : ∀ entry ∈ d.placed, IsPlain entry.2.receiveEnd

variable [Arithmetic τ]

/-- No task is ready at a negative zero. -/
theorem isPlain_readyAt (endOf? : Int → Option τ) (t : Task) : IsPlain (readyAt endOf? t) := by
  refine isPlain_largest Arithmetic.zero_add_zero fun time htime => ?_
  obtain ⟨parent, -, rfl⟩ := List.mem_map.mp htime
  exact isPlain_add_right Arithmetic.zero_add_one

omit [Arithmetic τ] in
/-- A gap is where it was sought from or where a reservation stops. -/
theorem isPlain_gapFrom (transfer : τ) {after : τ} {is : List (Interval τ)} (hafter : IsPlain after)
    (hstops : ∀ i ∈ is, IsPlain i.stop) : IsPlain (Timeline.gapFrom transfer after is) := by
  induction is generalizing after with
  | nil => exact hafter
  | cons i rest ih =>
      obtain ⟨hi, hrest⟩ := List.forall_mem_cons.mp hstops
      unfold Timeline.gapFrom
      split
      · exact hafter
      · exact ih (isPlain_larger hafter hi) hrest

/-- A placement leaves it at that. -/
theorem Places.plain {t : Task} {cost : Cost τ} {slot : Slot τ} {sent : Timeline τ}
    (h : Places w d t cost slot sent d') (hd : d.Plain) : d'.Plain := by
  have hsendStart : IsPlain slot.sendStart := by
    rw [h.sendStart]
    exact isPlain_gapFrom _ (isPlain_readyAt d.endOf? t) hd.stops
  have hsent (i : Interval τ) (hi : i ∈ sent.intervals) : IsPlain i.stop := by
    cases List.mem_cons.mp ((Timeline.perm_reserve h.send).mem_iff.mp hi) with
    | inl heq =>
        rw [heq]
        exact isPlain_add_left (isPlain_add_left hsendStart)
    | inr hi => exact hd.stops i hi
  have hreceiveStart : IsPlain slot.receiveStart := by
    rw [h.receiveStart]
    exact isPlain_gapFrom _ (isPlain_add_left (isPlain_add_left hsendStart)) hsent
  have hreceiveEnd : IsPlain slot.receiveEnd := by
    rw [h.receiveEnd]
    exact isPlain_add_left hreceiveStart
  constructor
  · intro i hi
    cases List.mem_cons.mp ((Timeline.perm_reserve h.receive).mem_iff.mp hi) with
    | inl heq =>
        rw [heq]
        exact isPlain_add_left hreceiveEnd
    | inr hi => exact hsent i hi
  · intro entry hentry
    rw [h.placed] at hentry
    cases List.mem_append.mp hentry with
    | inl hold => exact hd.ends entry hold
    | inr hnew =>
        rw [List.mem_singleton.mp hnew]
        exact hreceiveEnd

/-- From an empty draft on there are no negative zeros. -/
theorem Reaches.plain (h : Reaches w first d) (hplaced : first.placed = [])
    (htimeline : first.timeline = .empty) : d.Plain := by
  induction h with
  | refl =>
      constructor
      · intro i hi
        rw [htimeline] at hi
        cases hi
      · intro entry hentry
        rw [hplaced] at hentry
        cases hentry
  | place before next last ih =>
      obtain ⟨t, cost, slot, sent, -, hplaces⟩ := places_of_place last
      exact hplaces.plain ih

end Draft

namespace Plan

open Draft

variable {w : Workflow} {hosts : List Host} {padding : Quantity} {platform : Platform τ}
  {first last : Draft τ} {p : Plan τ}

/-- The last end is that of the last task placed. -/
theorem Planned.makespan_eq [Arithmetic τ] (h : Planned w hosts padding platform first last p)
    (hnum : p.HasNumericSlots) : p.makespan = largest 0 (last.ends.map (·.2)) := by
  have hplain := h.reaches.plain h.starts.placed h.starts.timeline
  have hends : last.ends.map (·.2) = last.placed.map (·.2.receiveEnd) := by
    unfold ends
    rw [List.map_map]
    rfl
  unfold makespan
  rw [hends]
  refine largest_eq_of_perm 0 (h.perm_entries.map _) (fun t ht => ?_) fun t ht => ?_
  · obtain ⟨entry, hentry, rfl⟩ := List.mem_map.mp ht
    exact (hnum entry hentry).2
  · obtain ⟨entry, hentry, rfl⟩ := List.mem_map.mp ht
    exact hplain.ends entry (h.perm_entries.mem_iff.mp hentry)

theorem Planned.trial_eq [Arithmetic τ] (h : Planned w hosts padding platform first last p)
    (hnum : p.HasNumericSlots) : first.trial w p.order = .ok p.makespan := by
  have hempty : first.order = [] := by
    unfold Draft.order
    rw [h.starts.placed]
    rfl
  have hends : first.ends = [] := by
    unfold ends
    rw [h.starts.placed]
    rfl
  have hnodup : (first.order ++ last.order).Nodup := by
    rw [hempty, List.nil_append]
    exact h.reaches.nodup_order h.starts.placed
  obtain ⟨noted, hlast, htrial⟩ :=
    trial_of_placeAll hnodup (h.reaches.placeAll h.starts.placed)
  rw [hends, List.nil_append] at hlast
  rw [h.makespan_eq hnum, hlast, h.order, htrial]

/-- **Replay**: a plan without NaN is what its order comes to.  On the draft that planning starts
with, a trial of the order ends at the makespan, and placing the order gives every slot and all
reservations; so two plans for the same arguments, whatever their bounds on parent sets, are the
same if their orders are. -/
theorem replay_of_build [Arithmetic τ] {bound : Int} (h : build τ w hosts bound padding = .ok p)
    (hnum : p.HasNumericSlots) :
    (∃ platform first last, Platform.ofHosts τ hosts = .ok platform ∧
      start w platform padding = .ok first ∧ first.timeline = .empty ∧ first.placed = [] ∧
      first.trial w p.order = .ok p.makespan ∧
      first.placeAll w p.order = (last, none) ∧ last.timeline = p.timeline ∧
      ∀ id, last.slotOf? id = (p.find? id).map (·.1)) ∧
    ∀ bound' p', build τ w hosts bound' padding = .ok p' → p'.order = p.order → p' = p := by
  obtain ⟨platform, first, last, hstart, hplanned, hinfeasible⟩ := started_of_build h
  have hplaced : first.placeAll w p.order = (last, none) := by
    rw [hplanned.order]
    exact hplanned.reaches.placeAll hplanned.starts.placed
  refine ⟨⟨platform, first, last, hplanned.hosts, hstart, hplanned.starts.timeline,
    hplanned.starts.placed, hplanned.trial_eq hnum, hplaced, hplanned.timeline.symm,
    hplanned.slotOf?_eq⟩, fun bound' p' h' horder => ?_⟩
  · obtain ⟨platform', first', last', hstart', hplanned', hinfeasible'⟩ := started_of_build h'
    obtain rfl : platform = platform' :=
      Except.ok.inj (hplanned.hosts.symm.trans hplanned'.hosts)
    obtain rfl : first = first' := Except.ok.inj (hstart.symm.trans hstart')
    have hplaced' : first.placeAll w p.order = (last', none) := by
      rw [← horder, hplanned'.order]
      exact hplanned'.reaches.placeAll hplanned'.starts.placed
    obtain rfl : last = last' := (Prod.mk.inj (hplaced.symm.trans hplaced')).1
    cases p
    cases p'
    rw [Plan.mk.injEq]
    exact ⟨hplanned'.entries.trans hplanned.entries.symm, horder,
      hinfeasible'.trans hinfeasible.symm, hplanned'.timeline.trans hplanned.timeline.symm⟩

/-- The plan of the workflow with a cycle can be replayed in doubles. -/
theorem replay_loop :
    build Float loop [loopHost] 3 1 = .ok (loopPlan Float) ∧ (loopPlan Float).HasNumericSlots ∧
      ∃ platform first, Platform.ofHosts Float [loopHost] = .ok platform ∧
        start loop platform 1 = .ok first ∧ first.trial loop [1, 3, 2] = .ok 9 := by
  have hnum : (loopPlan Float).HasNumericSlots := by decide +kernel
  have hmakespan : (loopPlan Float).makespan = 9 := by decide +kernel
  obtain ⟨⟨platform, first, last, hhosts, hstart, -, -, htrial, -⟩, -⟩ :=
    replay_of_build build_loop_float hnum
  rw [hmakespan] at htrial
  exact ⟨build_loop_float, hnum, platform, first, hhosts, hstart, htrial⟩

end Plan

end SharedLink
