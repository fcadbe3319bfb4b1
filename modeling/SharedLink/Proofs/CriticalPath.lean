import Mathlib.Tactic.Linarith
import SharedLink.Proofs.Precedence
import SharedLink.Proofs.Progress

/-!
# SharedLink.Proofs.CriticalPath

No plan is shorter than a path.

A task takes its two transfers and its computation, whatever gaps are found for
them, and it is not sent before its parent has been received and the delay has
passed.  So along a path of an acyclic workflow the ends grow by at least the cost
of each task; with doubles every single bound holds as it is rounded, and in exact
arithmetic the bounds add up to the cost of the path.

* `Cost.endFrom` — the end of a task that never waits;
* `Places.endFrom_le` — no task ends earlier;
* `Planned.covers` — along a path every end bounds the next;
* `foldl_add_le_makespan` — in exact arithmetic costs and delays add up to the makespan;
* `critical_of_build` — a plan of an acyclic workflow covers all of its paths.
-/

namespace SharedLink

open Timescale

variable {τ : Type} [Timescale τ]

/-- When a task is received that is sent at a time and never waits for the link. -/
def Cost.endFrom (cost : Cost τ) (start : τ) : τ :=
  start + cost.transfer + cost.comp + cost.transfer

namespace Draft

/-- What holds of every slot that a task is placed in holds of all slots of a draft. -/
theorem Reaches.forall_placed {w : Workflow} {first d : Draft τ} {r : Int × Slot τ → Prop}
    (h : Reaches w first d) (hempty : first.placed = [])
    (step : ∀ {d d' t cost slot sent}, d.costs = first.costs → Places w d t cost slot sent d' →
      slot.IsNumeric → r (t.id, slot))
    (hnum : ∀ entry ∈ d.placed, entry.2.IsNumeric) :
    d.costs = first.costs ∧ ∀ entry ∈ d.placed, r entry := by
  induction h with
  | refl =>
      refine ⟨rfl, fun entry hentry => ?_⟩
      rw [hempty] at hentry
      cases hentry
  | place before next last ih =>
      obtain ⟨t, cost, slot, sent, -, hplaces⟩ := places_of_place last
      rw [hplaces.placed] at hnum ⊢
      obtain ⟨hcosts, hold⟩ := ih fun entry he => hnum entry (List.mem_append_left _ he)
      refine ⟨hplaces.costs.trans hcosts, fun entry hentry => ?_⟩
      cases List.mem_append.mp hentry with
      | inl he => exact hold entry he
      | inr he =>
          rw [List.mem_singleton.mp he]
          exact step hcosts hplaces (hnum (t.id, slot)
            (List.mem_append_right _ (List.mem_singleton_self _)))

/-- One placement: the search for a gap only delays both legs. -/
theorem Places.endFrom_le [Arithmetic τ] {w : Workflow} {d d' : Draft τ} {t : Task} {cost : Cost τ}
    {slot : Slot τ} {sent : Timeline τ} (h : Places w d t cost slot sent d')
    (hnum : IsNumber slot.receiveEnd) {start : τ} (hstart : start ≤ slot.sendStart)
    (hend : IsNumber (cost.endFrom start)) : cost.endFrom start ≤ slot.receiveEnd := by
  have hreceive : IsNumber (slot.receiveStart + cost.transfer) := h.receiveEnd ▸ hnum
  have hreceiveStart : IsNumber slot.receiveStart := Ordered.isNumber_of_add hreceive
  have hfinish : IsNumber (slot.sendStart + cost.transfer + cost.comp) := by
    rw [h.receiveStart] at hreceiveStart
    exact Timeline.isNumber_of_earliestGap hreceiveStart
  have hgap : slot.sendStart + cost.transfer + cost.comp ≤ slot.receiveStart := by
    rw [h.receiveStart]
    exact Timeline.le_earliestGap hfinish
  have hcomputed : IsNumber (start + cost.transfer + cost.comp) := Ordered.isNumber_of_add hend
  have hsent : start + cost.transfer ≤ slot.sendStart + cost.transfer :=
    Arithmetic.add_le_add_right hstart (Ordered.isNumber_of_add hcomputed)
      (Ordered.isNumber_of_add hfinish)
  have hcomp : start + cost.transfer + cost.comp ≤ slot.receiveStart :=
    Ordered.le_trans (Arithmetic.add_le_add_right hsent hcomputed hfinish) hgap
  rw [h.receiveEnd]
  exact Arithmetic.add_le_add_right hcomp hend hreceive

/-- A placed task takes its time: it ends no earlier than it would if it never waited for
the link, from whatever time on before it is sent; and without parents it is not sent
before zero. -/
structure TakesTime (d : Draft τ) (w : Workflow) (entry : Int × Slot τ) : Prop where
  ends : ∀ cost start, d.costs.lookup entry.1 = some cost → start ≤ entry.2.sendStart →
    IsNumber (cost.endFrom start) → cost.endFrom start ≤ entry.2.receiveEnd
  starts : w.parentsOf entry.1 = [] → 0 ≤ entry.2.sendStart

/-- A task without parents is ready at zero. -/
theorem readyAt_root {t : Task} (h : t.parents = []) (endOf? : Int → Option τ) :
    readyAt endOf? t = 0 := by
  unfold readyAt
  rw [h]
  rfl

/-- **Durations**: every placed task takes its time. -/
theorem Reaches.takesTime [Arithmetic τ] {w : Workflow} {first d : Draft τ} (h : Reaches w first d)
    (hempty : first.placed = []) (hnum : ∀ entry ∈ d.placed, entry.2.IsNumeric) :
    ∀ entry ∈ d.placed, first.TakesTime w entry := by
  refine (h.forall_placed hempty (fun hcosts hplaces hslot => ⟨?_, ?_⟩) hnum).2
  · intro cost start hlookup hstart hend
    rw [← hcosts, hplaces.known] at hlookup
    rw [← Option.some.inj hlookup] at hend ⊢
    exact hplaces.endFrom_le hslot.2 hstart hend
  · intro hroot
    rw [Workflow.parentsOf_eq hplaces.found] at hroot
    have hready := hplaces.readyAt_le hslot.1
    rwa [readyAt_root hroot] at hready

end Draft

namespace Plan

/-- A task of a plan ends no earlier than if it was sent at `start` and never waited for
the link, unless that is NaN; its cost is what the draft knows of it. -/
def EndsAfter (p : Plan τ) (d : Draft τ) (start : τ) (id : Int) : Prop :=
  ∃ slot rank cost, p.find? id = some (slot, rank) ∧ d.costOf id = .ok cost ∧
    (IsNumber (cost.endFrom start) → cost.endFrom start ≤ slot.receiveEnd)

/-- Along a path the first task takes its time from zero on, and each of the others from
one delay after the task in front of it. -/
structure Covers (p : Plan τ) (d : Draft τ) (path : List Int) : Prop where
  root : ∀ id, path.head? = some id → p.EndsAfter d 0 id
  links : path.IsChain fun parent child => ∀ slot rank, p.find? parent = some (slot, rank) →
    p.EndsAfter d (slot.receiveEnd + Draft.readyDelay) child

section

variable {w : Workflow} {hosts : List Host} {padding : Quantity} {platform : Platform τ}
  {first last : Draft τ} {p : Plan τ}

theorem Planned.takesTime [Arithmetic τ] (h : Planned w hosts padding platform first last p)
    (hnum : p.HasNumericSlots) {id : Int} {slot : Slot τ} {rank : Nat}
    (hfind : p.find? id = some (slot, rank)) : first.TakesTime w (id, slot) :=
  h.reaches.takesTime h.starts.placed
    (fun entry he => hnum entry (h.perm_entries.mem_iff.mpr he)) (id, slot)
    (h.mem_placed_iff.mpr ⟨rank, hfind⟩)

/-- A task of a plan takes its time from whatever time on before it is sent. -/
theorem Planned.endsAfter [Arithmetic τ] (h : Planned w hosts padding platform first last p)
    (hnum : p.HasNumericSlots) {id : Int} {slot : Slot τ} {rank : Nat}
    (hfind : p.find? id = some (slot, rank)) {start : τ} (hstart : start ≤ slot.sendStart) :
    p.EndsAfter first start id := by
  have hid : id ∈ w.ids := by
    rw [← h.perm_order.mem_iff, h.order]
    exact List.mem_map_of_mem (h.mem_placed_iff.mpr ⟨rank, hfind⟩)
  obtain ⟨t, ht, rfl⟩ := List.mem_map.mp hid
  obtain ⟨cost, hlookup, -⟩ := h.starts.cost_of_mem ht
  exact ⟨slot, rank, cost, hfind, Draft.costOf_eq_ok_iff.mpr hlookup,
    (h.takesTime hnum hfind).ends cost start hlookup hstart⟩

/-- **Critical paths**: a plan of an acyclic workflow covers all of its paths. -/
theorem Planned.covers [Arithmetic τ] (h : Planned w hosts padding platform first last p)
    (hnum : p.HasNumericSlots) (hacyclic : w.Acyclic) {path : List Int}
    (hroute : w.Route path) : p.Covers first path where
  root id hid := by
    obtain ⟨hmem, hroot⟩ := hroute.parentsOf_head hid
    obtain ⟨slot, rank, hfind⟩ := h.exists_find? hmem
    exact h.endsAfter hnum hfind ((h.takesTime hnum hfind).starts hroot)
  links := by
    refine hroute.descends.imp fun parent child hlink slot rank hfind => ?_
    have hcycle : ¬w.Ancestor child parent := fun hanc =>
      hacyclic child (hanc.tail hlink)
    obtain ⟨pslot, prank, cslot, crank, hp, hc, hle⟩ := (h.precedes hnum hlink hcycle).received
    rw [hfind] at hp
    obtain ⟨rfl, -⟩ := Prod.mk.inj (Option.some.inj hp)
    exact h.endsAfter hnum hc hle

/-- The makespan is at or behind every end. -/
theorem receiveEnd_le_makespan [Ordered τ] (hnum : p.HasNumericSlots) {id : Int} {slot : Slot τ}
    {rank : Nat} (hfind : p.find? id = some (slot, rank)) : slot.receiveEnd ≤ p.makespan := by
  unfold find? at hfind
  obtain ⟨⟨entry, rank'⟩, hentry, heq⟩ := Option.map_eq_some_iff.mp hfind
  have hmem : entry ∈ p.entries := List.fst_mem_of_mem_zipIdx (List.mem_of_find?_eq_some hentry)
  obtain ⟨rfl, -⟩ := Prod.mk.inj heq
  refine le_largest 0 (fun t ht => ?_) (List.mem_map_of_mem hmem)
  obtain ⟨other, hother, rfl⟩ := List.mem_map.mp ht
  exact (hnum other hother).2

end

/-! ## exact times -/

/-- In exact arithmetic a task that never waits takes as long as it costs. -/
theorem endFrom_eq (cost : Cost Rat) (start : Rat) : cost.endFrom start = start + cost.total := by
  change start + cost.transfer + cost.comp + cost.transfer =
    start + (cost.transfer + cost.transfer + cost.comp)
  ring

/-- From a task on, the costs and the delays add up. -/
theorem foldl_add_le_makespan {p : Plan Rat} {d : Draft Rat} {id : Int} {rest : List Int}
    {slot : Slot Rat} {rank : Nat} {totals : List Rat} (before delays : Rat)
    (hfind : p.find? id = some (slot, rank))
    (hlinks : (id :: rest).IsChain fun parent child => ∀ slot rank,
      p.find? parent = some (slot, rank) → p.EndsAfter d (slot.receiveEnd + Draft.readyDelay) child)
    (htotals : List.Forall₂ (fun id total => ∃ cost, d.costOf id = .ok cost ∧ cost.total = total)
      rest totals)
    (hbefore : before + delays ≤ slot.receiveEnd) :
    totals.foldl (· + ·) before + (delays + rest.length) ≤ p.makespan := by
  induction htotals generalizing id slot rank before delays with
  | nil =>
      have hend : slot.receiveEnd ≤ p.makespan :=
        receiveEnd_le_makespan p.hasNumericSlots_rat hfind
      simp only [List.foldl_nil, List.length_nil, Nat.cast_zero]
      linarith
  | @cons next total rest totals hnext hrest ih =>
      obtain ⟨hlink, hlinks⟩ := List.isChain_cons_cons.mp hlinks
      obtain ⟨nslot, nrank, cost, hnfind, hcost, hend⟩ := hlink slot rank hfind
      obtain ⟨cost', hcost', rfl⟩ := hnext
      obtain rfl := Except.ok.inj (hcost.symm.trans hcost')
      have hend : slot.receiveEnd + 1 + cost.total ≤ nslot.receiveEnd := by
        rw [← endFrom_eq]
        exact hend Rat.le_refl
      have hrest := ih (before + cost.total) (delays + 1) hnfind hlinks (by linarith)
      simp only [List.foldl_cons, List.length_cons, Nat.cast_add, Nat.cast_one]
      linarith

/-- In exact arithmetic the makespan bounds the cost of a path with all of its delays. -/
theorem pathCost_le_makespan {w : Workflow} {p : Plan Rat} {d : Draft Rat} {path : List Int}
    (hd : d.Prepared w) (hroute : w.Route path) (hcovers : p.Covers d path) :
    ∃ cost, d.pathCost path = .ok cost ∧
      cost + (path.length - 1) * Draft.readyDelay ≤ p.makespan := by
  obtain ⟨totals, htotals, hcost⟩ := hd.exists_pathCost hroute.contains
  refine ⟨_, hcost, ?_⟩
  obtain ⟨root, -, hhead⟩ := hroute.start
  cases htotals with
  | nil => cases hhead
  | @cons id total rest totals hfirst hrest =>
      obtain ⟨slot, rank, cost, hfind, hknown, hend⟩ := hcovers.root id rfl
      obtain ⟨cost', hcost', rfl⟩ := hfirst
      obtain rfl := Except.ok.inj (hknown.symm.trans hcost')
      have hend : 0 + cost.total ≤ slot.receiveEnd := by
        rw [← endFrom_eq]
        exact hend Rat.le_refl
      have hsum := foldl_add_le_makespan (0 + cost.total) 0 hfind hcovers.links hrest
        (by linarith)
      have hdelay : (Draft.readyDelay : Rat) = 1 := rfl
      have hdelays : ((id :: rest).length - 1 : Rat) * Draft.readyDelay = 0 + rest.length := by
        rw [hdelay, List.length_cons, Nat.cast_add, Nat.cast_one]
        ring
      rw [hdelays]
      exact hsum

/-- **No plan is shorter than a path**: in a plan of an acyclic workflow every task of a path ends
no earlier than it would if it was sent one delay after the task in front of it, or at zero if
there is none, and never waited for the link; in doubles this holds of the bound as it is rounded,
unless that is NaN.  In exact arithmetic the makespan is at least the cost of every path, with one
delay between any two tasks.  Lengths may be negative. -/
theorem critical_of_build {w : Workflow} {hosts : List Host} {bound : Int} {padding : Quantity}
    (hacyclic : w.Acyclic) :
    (∀ (τ : Type) [Timescale τ] [Arithmetic τ] (p : Plan τ),
      build τ w hosts bound padding = .ok p → p.HasNumericSlots →
      ∃ platform first paths, Platform.ofHosts τ hosts = .ok platform ∧
        Draft.start w platform padding = .ok first ∧ w.paths = .ok paths ∧
        ∀ path ∈ paths, p.Covers first path) ∧
    ∀ p : Plan Rat, build Rat w hosts bound padding = .ok p →
      ∃ platform first paths, Platform.ofHosts Rat hosts = .ok platform ∧
        Draft.start w platform padding = .ok first ∧ w.paths = .ok paths ∧
        ∀ path ∈ paths, ∃ cost, first.pathCost path = .ok cost ∧
          cost + (path.length - 1) * Draft.readyDelay ≤ p.makespan := by
  constructor
  · intro τ _ _ p h hnum
    obtain ⟨platform, first, last, hstart, hplanned, -⟩ := started_of_build h
    obtain ⟨paths, hpaths⟩ := Workflow.exists_paths hplanned.reciprocal
    refine ⟨platform, first, paths, hplanned.hosts, hstart, hpaths, fun path hpath => ?_⟩
    exact hplanned.covers hnum hacyclic
      (Workflow.route_of_paths hplanned.reciprocal hpaths hpath)
  · intro p h
    obtain ⟨platform, first, last, hstart, hplanned, -⟩ := started_of_build h
    obtain ⟨paths, hpaths⟩ := Workflow.exists_paths hplanned.reciprocal
    refine ⟨platform, first, paths, hplanned.hosts, hstart, hpaths, fun path hpath => ?_⟩
    have hroute := Workflow.route_of_paths hplanned.reciprocal hpaths hpath
    exact pathCost_le_makespan hplanned.starts.prepared hroute
      (hplanned.covers p.hasNumericSlots_rat hacyclic hroute)

/-- A task in front of two tasks that a last one waits for; two of them send something. -/
def diamond : Workflow where
  tasks := [
    { Task.make 1 2 1 none none with
      children := [2, 3], files := [{ name := "data", size := 3, kind := .output }] },
    { Task.make 2 3 1 none none with parents := [1], children := [4] },
    { Task.make 3 1 1 none none with
      parents := [1], children := [4], files := [{ name := "part", size := 2, kind := .output }] },
    { Task.make 4 1 1 none none with parents := [2, 3] }]
  nodup_ids := by decide

/-- The plan of this workflow, with a padding of one second. -/
def diamondPlan (τ : Type) [Timescale τ] : Plan τ where
  entries := [(1, ⟨0, 5, 8⟩), (3, ⟨9, 12, 14⟩), (2, ⟨15, 18, 18⟩), (4, ⟨19, 20, 20⟩)]
  order := [1, 3, 2, 4]
  infeasible := []
  timeline := ⟨[⟨0 - 1, 4⟩, ⟨4, 9⟩, ⟨8, 12⟩, ⟨11, 15⟩, ⟨14, 16⟩, ⟨17, 19⟩, ⟨18, 20⟩, ⟨19, 21⟩]⟩

theorem acyclic_diamond : diamond.Acyclic :=
  Workflow.acyclic_of_isAcyclic (Workflow.check_eq_ok_iff.mp (by decide)) (by decide +kernel)

theorem build_diamond_rat : build Rat diamond [loopHost] 3 1 = .ok (diamondPlan Rat) := by
  decide +kernel

/-- Both paths of this workflow fit in the plan. -/
theorem critical_diamond :
    diamond.Acyclic ∧ build Rat diamond [loopHost] 3 1 = .ok (diamondPlan Rat) ∧
      ∃ platform first paths, Platform.ofHosts Rat [loopHost] = .ok platform ∧
        Draft.start diamond platform 1 = .ok first ∧ diamond.paths = .ok paths ∧
        ∀ path ∈ paths, ∃ cost, first.pathCost path = .ok cost ∧
          cost + (path.length - 1) * Draft.readyDelay ≤ (diamondPlan Rat).makespan :=
  ⟨acyclic_diamond, build_diamond_rat,
    (critical_of_build acyclic_diamond).2 (diamondPlan Rat) build_diamond_rat⟩

end Plan

end SharedLink
