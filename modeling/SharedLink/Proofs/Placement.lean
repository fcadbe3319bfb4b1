import SharedLink.Plan.Build
import SharedLink.Proofs.Ancestry
import SharedLink.Proofs.Outcomes

/-!
# SharedLink.Proofs.Placement

How a plan comes about.

Whatever paths are served and in whatever orders parents are tried, a plan is
reached from an empty draft by placing tasks, one at a time, each of which could
be listed next after those that have been placed.  What every such placement
keeps, every plan has.

* `Draft.Places` — one placement: both gaps and both reservations;
* `Draft.Fits` — the same for a task that is only tried;
* `Draft.Reaches` — placements in turn;
* `reaches_serve` — serving a workflow places all of its tasks, and does nothing else;
* `planned_of_build` — the placements behind a plan.
-/

namespace SharedLink

variable {τ : Type} [Timescale τ]

theorem Workflow.get_eq_ok_iff {w : Workflow} {id : Int} {t : Task} :
    w.get id = .ok t ↔ w.find? id = some t := by
  unfold Workflow.get
  cases w.find? id with
  | none => simp
  | some u => simp

namespace Draft

omit [Timescale τ] in
theorem costOf_eq_ok_iff {d : Draft τ} {id : Int} {cost : Cost τ} :
    d.costOf id = .ok cost ↔ d.costs.lookup id = some cost := by
  unfold costOf
  cases d.costs.lookup id with
  | none => simp
  | some c => simp

/-! ## one placement -/

/-- A task is placed in a slot: its input is sent in a gap from the time on at which
it is ready, its output in a gap from its finish on, and `sent` is the timeline
between the two reservations. -/
structure Places (w : Workflow) (d : Draft τ) (t : Task) (cost : Cost τ) (slot : Slot τ)
    (sent : Timeline τ) (d' : Draft τ) : Prop where
  found : w.find? t.id = some t
  known : d.costs.lookup t.id = some cost
  sendStart : slot.sendStart = d.timeline.earliestGap (readyAt d.endOf? t) cost.transfer
  send : d.timeline.reserve (slot.sendStart - d.padding)
    (slot.sendStart + cost.transfer + d.padding) = .ok sent
  receiveStart : slot.receiveStart =
    sent.earliestGap (slot.sendStart + cost.transfer + cost.comp) cost.transfer
  receiveEnd : slot.receiveEnd = slot.receiveStart + cost.transfer
  receive : sent.reserve (slot.receiveStart - d.padding) (slot.receiveEnd + d.padding) =
    .ok d'.timeline
  placed : d'.placed = d.placed ++ [(t.id, slot)]
  padding : d'.padding = d.padding
  costs : d'.costs = d.costs

/-- A task is fitted on a timeline after parents with some ends: both gaps are found and both
reservations are made there. -/
structure Fits (w : Workflow) (d : Draft τ) (endOf? : Int → Option τ) (line : Timeline τ)
    (t : Task) (cost : Cost τ) (slot : Slot τ) (sent line' : Timeline τ) : Prop where
  found : w.find? t.id = some t
  known : d.costs.lookup t.id = some cost
  sendStart : slot.sendStart = line.earliestGap (readyAt endOf? t) cost.transfer
  send : line.reserve (slot.sendStart - d.padding)
    (slot.sendStart + cost.transfer + d.padding) = .ok sent
  receiveStart : slot.receiveStart =
    sent.earliestGap (slot.sendStart + cost.transfer + cost.comp) cost.transfer
  receiveEnd : slot.receiveEnd = slot.receiveStart + cost.transfer
  receive : sent.reserve (slot.receiveStart - d.padding) (slot.receiveEnd + d.padding) = .ok line'

/-- A task that is fitted has both gaps and both reservations. -/
theorem fits_of_fit {w : Workflow} {d : Draft τ} {endOf? : Int → Option τ} {id : Int}
    {line line' : Timeline τ} {slot : Slot τ} (h : d.fit w endOf? id line = .ok (slot, line')) :
    ∃ t cost sent, t.id = id ∧ Fits w d endOf? line t cost slot sent line' := by
  unfold fit at h
  simp only [bind_eq_ok_iff, pure_eq_ok_iff] at h
  obtain ⟨cost, hcost, t, ht, sent, hsend, last, hreceive, hslot⟩ := h
  rw [costOf_eq_ok_iff] at hcost
  rw [Workflow.get_eq_ok_iff] at ht
  have hid : t.id = id := Workflow.id_of_find? ht
  obtain ⟨rfl, rfl⟩ := Prod.mk.inj hslot
  rw [← hid] at ht hcost
  exact ⟨t, cost, sent, hid, ht, hcost, rfl, hsend, rfl, rfl, hreceive⟩

/-- A placement that succeeds finds both gaps and makes both reservations. -/
theorem places_of_place {w : Workflow} {d d' : Draft τ} {id : Int} (h : d.place w id = .ok d') :
    ∃ t cost slot sent, t.id = id ∧ Places w d t cost slot sent d' := by
  obtain ⟨⟨slot, line⟩, hfit, hd⟩ := bind_eq_ok_iff.mp h
  obtain ⟨t, cost, sent, rfl, hfits⟩ := fits_of_fit hfit
  rw [← Except.ok.inj hd]
  exact ⟨t, cost, slot, sent, rfl, hfits.found, hfits.known, hfits.sendStart, hfits.send,
    hfits.receiveStart, hfits.receiveEnd, hfits.receive, rfl, rfl, rfl⟩

/-! ## placements in turn -/

/-- A draft is reached by placing tasks in turn, each of which could be listed next. -/
inductive Reaches (w : Workflow) (d : Draft τ) : Draft τ → Prop
  | refl : Reaches w d d
  | place {d' d'' : Draft τ} {id : Int} (before : Reaches w d d') (next : w.Next d'.order id)
      (last : d'.place w id = .ok d'') : Reaches w d d''

theorem Reaches.trans {w : Workflow} {a b c : Draft τ} (hab : Reaches w a b)
    (hbc : Reaches w b c) : Reaches w a c := by
  induction hbc with
  | refl => exact hab
  | place before next last ih => exact .place ih next last

/-- The tasks that are placed on the way follow those that were. -/
theorem Reaches.follows {w : Workflow} {d d' : Draft τ} (h : Reaches w d d') :
    ∃ new, d'.order = d.order ++ new ∧ w.Follows d.order new := by
  induction h with
  | refl => exact ⟨[], (List.append_nil _).symm, trivial⟩
  | @place d' d'' id before next last ih =>
      obtain ⟨new, horder, hfollows⟩ := ih
      refine ⟨new ++ [id], ?_, ?_⟩
      · rw [order_place last, horder, List.append_assoc]
      · rw [Workflow.follows_append]
        rw [horder] at next
        exact ⟨hfollows, Workflow.follows_singleton next⟩

/-- From an empty draft on, the order lists one task after the other. -/
theorem Reaches.follows_nil {w : Workflow} {first d : Draft τ} (h : Reaches w first d)
    (hempty : first.placed = []) : w.Follows [] d.order := by
  obtain ⟨new, horder, hfollows⟩ := h.follows
  have hnil : first.order = [] := by
    unfold Draft.order
    rw [hempty, List.map_nil]
  rw [hnil] at horder hfollows
  rw [horder]
  exact hfollows

theorem Reaches.nodup_order {w : Workflow} {first d : Draft τ} (h : Reaches w first d)
    (hempty : first.placed = []) : d.order.Nodup :=
  Workflow.nodup_of_follows .nil (h.follows_nil hempty)

/-- What has been placed stays placed. -/
theorem Reaches.mem_order {w : Workflow} {d d' : Draft τ} (h : Reaches w d d') {id : Int}
    (hid : id ∈ d.order) : id ∈ d'.order := by
  obtain ⟨new, horder, -⟩ := h.follows
  rw [horder]
  exact List.mem_append_left new hid

/-- Tasks are all placed just if the first one is and the others then are. -/
theorem placeAll_cons_iff {w : Workflow} {d d' : Draft τ} {id : Int} {rest : List Int} :
    d.placeAll w (id :: rest) = (d', none) ↔
      ∃ next, d.place w id = .ok next ∧ next.placeAll w rest = (d', none) := by
  rw [placeAll]
  cases d.place w id with
  | error fault => simp
  | ok next => simp

/-- Tasks can be placed in two parts. -/
theorem placeAll_append {w : Workflow} {d d' : Draft τ} {xs ys : List Int}
    (h : d.placeAll w xs = (d', none)) : d.placeAll w (xs ++ ys) = d'.placeAll w ys := by
  induction xs generalizing d with
  | nil =>
      obtain ⟨rfl, -⟩ := Prod.mk.inj h
      rfl
  | cons id rest ih =>
      obtain ⟨next, hplace, hrest⟩ := placeAll_cons_iff.mp h
      rw [List.cons_append, placeAll, hplace]
      exact ih hrest

/-- Tasks that can all be placed come behind those that were. -/
theorem placed_placeAll {w : Workflow} {d d' : Draft τ} {new : List Int}
    (h : d.placeAll w new = (d', none)) :
    ∃ added, d'.placed = d.placed ++ added ∧ added.map (·.1) = new := by
  induction new generalizing d with
  | nil =>
      obtain ⟨rfl, -⟩ := Prod.mk.inj h
      exact ⟨[], (List.append_nil _).symm, rfl⟩
  | cons id rest ih =>
      obtain ⟨next, hplace, hrest⟩ := placeAll_cons_iff.mp h
      obtain ⟨slot, hslot⟩ := placed_place hplace
      obtain ⟨added, hadded, hnew⟩ := ih hrest
      refine ⟨(id, slot) :: added, ?_, by rw [List.map_cons, hnew]⟩
      rw [hadded, hslot, List.append_assoc, List.singleton_append]

theorem order_placeAll {w : Workflow} {d d' : Draft τ} {new : List Int}
    (h : d.placeAll w new = (d', none)) : d'.order = d.order ++ new := by
  obtain ⟨added, hplaced, rfl⟩ := placed_placeAll h
  unfold order
  rw [hplaced, List.map_append]

/-- Placing tasks that follow reaches a draft. -/
theorem reaches_placeAll {w : Workflow} {d : Draft τ} {new : List Int}
    (h : w.Follows d.order new) : Reaches w d (d.placeAll w new).1 := by
  induction new generalizing d with
  | nil => exact .refl
  | cons id rest ih =>
      obtain ⟨hnext, hrest⟩ := h
      unfold placeAll
      cases hp : d.place w id with
      | error fault => exact .refl
      | ok d' =>
          rw [← order_place hp] at hrest
          exact (Reaches.place .refl hnext hp).trans (ih hrest)

/-- What the walk for a task adds is placed behind what was. -/
theorem settle_eq {w : Workflow} {d : Draft τ} {id : Int} {new : List Int}
    (hwalk : w.ancestry d.order id = ⟨d.order ++ new, none⟩) :
    d.settle w id = d.placeAll w new := by
  unfold settle
  dsimp only
  rw [hwalk, List.drop_left, Option.map_none, Option.or_none]

/-- However settling a task ends, what has been placed by then was placed in turn. -/
theorem reaches_settle (w : Workflow) (d : Draft τ) (id : Int) : Reaches w d (d.settle w id).1 := by
  obtain ⟨new, horder, hfollows, -⟩ := w.follows_ancestry d.order id
  unfold settle
  dsimp only
  rw [horder, List.drop_left]
  exact reaches_placeAll hfollows

/-- **Settling a task** places it after its ancestors, and nothing else. -/
theorem reaches_settled {w : Workflow} {d d' : Draft τ} {id : Int}
    (h : settled w d id = .ok d') : Reaches w d d' ∧ id ∈ d'.order := by
  obtain ⟨new, horder, hfollows, hdone⟩ := w.follows_ancestry d.order id
  have hreaches : Reaches w d (d.placeAll w new).1 := reaches_placeAll hfollows
  have hdrop : (w.ancestry d.order id).order.drop d.order.length = new := by
    rw [horder, List.drop_left]
  unfold settled settle at h
  dsimp only at h
  rw [hdrop] at h
  cases hfault : (d.placeAll w new).2 with
  | some fault => simp [hfault] at h
  | none =>
      cases hstuck : (w.ancestry d.order id).stuck with
      | some stuck => simp [hfault, hstuck] at h
      | none =>
          simp only [hfault, hstuck, Option.map_none, Option.or_none, Except.ok.injEq] at h
          rw [← h]
          refine ⟨hreaches, ?_⟩
          rw [order_placeAll (Prod.ext rfl hfault), ← horder]
          exact hdone hstuck

/-- Settling tasks in turn places each of them. -/
theorem reaches_foldlM_settled {w : Workflow} {ids : List Int} {d d' : Draft τ}
    (h : ids.foldlM (settled w) d = .ok d') : Reaches w d d' ∧ ∀ id ∈ ids, id ∈ d'.order := by
  induction ids generalizing d with
  | nil =>
      rw [List.foldlM_nil, pure_eq_ok_iff] at h
      rw [h]
      exact ⟨.refl, fun id hid => absurd hid List.not_mem_nil⟩
  | cons first rest ih =>
      obtain ⟨mid, hfirst, h⟩ := foldlM_cons_eq_ok_iff.mp h
      obtain ⟨hmid, hin⟩ := reaches_settled hfirst
      obtain ⟨hreaches, hrest⟩ := ih h
      refine ⟨hmid.trans hreaches, fun id hid => ?_⟩
      cases List.mem_cons.mp hid with
      | inl heq => rw [heq]; exact hreaches.mem_order hin
      | inr hid => exact hrest id hid

/-! ## before the first placement -/

omit [Timescale τ] in
/-- Of tasks and what comes with them in the same order, what is found under the id of
a task comes with it. -/
theorem lookup_of_mem (r : Task → Cost τ → Prop) {tasks : List Task} {costs : List (Int × Cost τ)}
    (h : List.Forall₂ (fun t c => t.id = c.1 ∧ r t c.2) tasks costs)
    (hnodup : (tasks.map (·.id)).Nodup) {t : Task} (ht : t ∈ tasks) :
    ∃ cost, costs.lookup t.id = some cost ∧ r t cost := by
  induction h with
  | nil => cases ht
  | @cons u c us cs huc hrest ih =>
      obtain ⟨other, cost⟩ := c
      obtain ⟨hid, hcost⟩ := huc
      have hid : u.id = other := hid
      rw [List.map_cons, List.nodup_cons] at hnodup
      rw [List.lookup_cons, ← hid]
      cases List.mem_cons.mp ht with
      | inl heq =>
          rw [heq, beq_self_eq_true]
          exact ⟨cost, rfl, hcost⟩
      | inr ht =>
          have hne : (t.id == u.id) = false :=
            beq_eq_false_iff_ne.mpr fun heq => hnodup.1 (heq ▸ List.mem_map_of_mem ht)
          rw [hne]
          exact ih hnodup.2 ht

omit [Timescale τ] in
/-- What is found comes with a task of that id. -/
theorem source_of_lookup (r : Task → Cost τ → Prop) {tasks : List Task}
    {costs : List (Int × Cost τ)}
    (h : List.Forall₂ (fun t c => t.id = c.1 ∧ r t c.2) tasks costs) {id : Int} {cost : Cost τ}
    (hcost : costs.lookup id = some cost) : ∃ t ∈ tasks, t.id = id ∧ r t cost := by
  induction h with
  | nil => cases hcost
  | @cons u c us cs huc hrest ih =>
      rw [List.lookup_cons] at hcost
      cases hid : id == c.1 with
      | true =>
          rw [hid] at hcost
          refine ⟨u, List.mem_cons_self, huc.1.trans (eq_of_beq hid).symm, ?_⟩
          rw [← Option.some.inj hcost]
          exact huc.2
      | false =>
          rw [hid] at hcost
          obtain ⟨t, ht, hfound⟩ := ih hcost
          exact ⟨t, List.mem_cons_of_mem u ht, hfound⟩

/-- A draft with nothing in it but the padding and the cost of every task. -/
structure Starts (w : Workflow) (platform : Platform τ) (padding : Quantity) (d : Draft τ) :
    Prop where
  nonneg : padding.isNegative = false
  padding : timeOf τ padding = .ok d.padding ∨ w.tasks = [] ∧ d.padding = 0
  costs : List.Forall₂ (fun t c => t.id = c.1 ∧ platform.cost t = .ok c.2) w.tasks d.costs
  timeline : d.timeline = .empty
  placed : d.placed = []

theorem starts_of_start {w : Workflow} {platform : Platform τ} {padding : Quantity} {d : Draft τ}
    (h : start w platform padding = .ok d) : Starts w platform padding d := by
  unfold start at h
  dsimp only at h
  split at h
  · cases h
  next hneg =>
    have hneg : padding.isNegative = false := Bool.eq_false_iff.mpr hneg
    obtain ⟨costs, hcosts, h⟩ := bind_eq_ok_iff.mp h
    have hcosts : List.Forall₂ (fun t c => t.id = c.1 ∧ platform.cost t = .ok c.2) w.tasks costs :=
      (mapM_eq_ok_iff.mp hcosts).imp fun t c hc => by
        obtain ⟨cost, hcost, hc⟩ := bind_eq_ok_iff.mp hc
        rw [← Except.ok.inj hc]
        exact ⟨rfl, hcost⟩
    split at h
    · next hempty =>
        have hempty : w.tasks = [] := List.isEmpty_iff.mp hempty
        rw [← Except.ok.inj h]
        refine ⟨hneg, ?_, hcosts, rfl, rfl⟩
        unfold timeOf
        cases hpad : (Timescale.ofQuantity? padding : Option τ) with
        | none => exact .inr ⟨hempty, rfl⟩
        | some pad => exact .inl rfl
    · obtain ⟨pad, hpad, h⟩ := bind_eq_ok_iff.mp h
      rw [← Except.ok.inj h]
      exact ⟨hneg, .inl hpad, hcosts, rfl, rfl⟩

/-- The cost that a draft starts with is what the task is expected to cost. -/
theorem Starts.cost_of_mem {w : Workflow} {platform : Platform τ} {padding : Quantity}
    {d : Draft τ} (h : Starts w platform padding d) {t : Task} (ht : t ∈ w.tasks) :
    ∃ cost, d.costs.lookup t.id = some cost ∧ platform.cost t = .ok cost :=
  lookup_of_mem (fun t cost => platform.cost t = .ok cost) h.costs w.nodup_ids ht

end Draft

namespace Plan

open Draft

/-- Serving a task settles it and some of its parents, in whatever order. -/
theorem reaches_serveTask {w : Workflow} {bound : Int} {d d' : Draft τ} {id : Int}
    (h : serveTask w bound d id = .ok d') : Reaches w d d' := by
  unfold serveTask at h
  obtain ⟨t, -, h⟩ := bind_eq_ok_iff.mp h
  have hsome : ∃ parents : List Int, (parents.foldlM (settled w) d >>= fun d => settled w d id) =
      .ok d' := by
    dsimp only at h
    split at h
    · exact ⟨_, h⟩
    · obtain ⟨parents, -, h⟩ := bind_eq_ok_iff.mp h
      exact ⟨parents, h⟩
  obtain ⟨parents, h⟩ := hsome
  obtain ⟨mid, hparents, hlast⟩ := bind_eq_ok_iff.mp h
  exact (reaches_foldlM_settled hparents).1.trans (reaches_settled hlast).1

/-- Serving a path reaches a draft. -/
theorem reaches_servePath {w : Workflow} {bound : Int} {d d' : Draft τ} {path : List Int}
    (h : servePath w bound d path = .ok d') : Reaches w d d' :=
  rel_of_foldlM (Reaches w) (fun _ => .refl) Reaches.trans (fun _ _ _ _ => reaches_serveTask) h

/-- **Serving a workflow** places all of its tasks, and does nothing else. -/
theorem reaches_serve {w : Workflow} {bound : Int} {d d' : Draft τ}
    (h : serve w bound d = .ok d') : Reaches w d d' ∧ ∀ id ∈ w.ids, id ∈ d'.order := by
  unfold serve at h
  simp only [bind_eq_ok_iff] at h
  obtain ⟨paths, -, ranked, -, mid, hpaths, hrest⟩ := h
  have hmid : Reaches w d mid :=
    rel_of_foldlM (Reaches w) (fun _ => .refl) Reaches.trans
      (fun _ _ _ _ => reaches_servePath) hpaths
  obtain ⟨hreaches, hall⟩ := reaches_foldlM_settled hrest
  exact ⟨hmid.trans hreaches, hall⟩

/-- The placements behind a plan: all tasks of a checked workflow are placed from an
empty draft on, and nothing else is. -/
structure Planned (w : Workflow) (hosts : List Host) (padding : Quantity) (platform : Platform τ)
    (first last : Draft τ) (p : Plan τ) : Prop where
  reciprocal : w.Reciprocal
  hosts : Platform.ofHosts τ hosts = .ok platform
  starts : Starts w platform padding first
  reaches : Reaches w first last
  complete : ∀ id ∈ w.ids, id ∈ last.order
  entries : p.entries = sortBy entryBefore last.placed
  order : p.order = last.order
  timeline : p.timeline = last.timeline

/-- Planning checks its arguments, starts a draft, serves the workflow, and lists the tasks that
fit no host. -/
theorem steps_of_build {w : Workflow} {hosts : List Host} {bound : Int} {padding : Quantity}
    {p : Plan τ} (h : build τ w hosts bound padding = .ok p) :
    ∃ platform first last, w.check = .ok () ∧ Platform.ofHosts τ hosts = .ok platform ∧
      Draft.start w platform padding = .ok first ∧ serve w bound first = .ok last ∧
      p = ofDraft last ((w.tasks.filter fun t => !platform.isFeasible t).map (·.id)) := by
  unfold build at h
  dsimp only at h
  split at h
  · cases h
  · obtain ⟨⟨⟩, hcheck, h⟩ := bind_eq_ok_iff.mp h
    simp only [bind_eq_ok_iff] at h
    obtain ⟨platform, hhosts, first, hstart, last, hserve, h⟩ := h
    exact ⟨platform, first, last, hcheck, hhosts, hstart, hserve, (Except.ok.inj h).symm⟩

/-- Planning starts a draft and comes to a plan of what is reached from it. -/
theorem started_of_build {w : Workflow} {hosts : List Host} {bound : Int} {padding : Quantity}
    {p : Plan τ} (h : build τ w hosts bound padding = .ok p) :
    ∃ platform first last, Draft.start w platform padding = .ok first ∧
      Planned w hosts padding platform first last p ∧
      p.infeasible = sortInts ((w.tasks.filter fun t => !platform.isFeasible t).map (·.id)) := by
  obtain ⟨platform, first, last, hcheck, hhosts, hstart, hserve, rfl⟩ := steps_of_build h
  obtain ⟨hreaches, hall⟩ := reaches_serve hserve
  exact ⟨platform, first, last, hstart, ⟨Workflow.check_eq_ok_iff.mp hcheck, hhosts,
    starts_of_start hstart, hreaches, hall, rfl, rfl, rfl⟩, rfl⟩

/-- **Planning** checks its arguments, places all tasks, and sorts them. -/
theorem planned_of_build {w : Workflow} {hosts : List Host} {bound : Int} {padding : Quantity}
    {p : Plan τ} (h : build τ w hosts bound padding = .ok p) :
    ∃ platform first last, Planned w hosts padding platform first last p := by
  obtain ⟨platform, first, last, -, hplanned, -⟩ := started_of_build h
  exact ⟨platform, first, last, hplanned⟩

end Plan

end SharedLink
