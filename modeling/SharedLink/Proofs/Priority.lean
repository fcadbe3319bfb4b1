import SharedLink.Proofs.Completeness
import SharedLink.Proofs.CriticalPath

/-!
# SharedLink.Proofs.Priority

Priorities never contradict dependencies.

Ranks go by the starts of the send legs and not by the order of placement, and a
task that is placed late may be sent early.  Still, in exact arithmetic and without
negative lengths, a task ends no earlier than it is sent, and its children are sent
one delay later; so along every chain of dependencies the starts grow.

* `Planned.sendStart_lt` — an ancestor is sent before its descendants;
* `topological_of_build` — the tasks by rank are in a topological order.
-/

namespace SharedLink

open Timescale

variable {w : Workflow} {hosts : List Host} {padding : Quantity} {platform : Platform Rat}
  {first last : Draft Rat} {p : Plan Rat}

namespace Plan

/-- Without negative lengths neither a computation nor a transfer takes less than no time. -/
theorem Planned.cost_nonneg (h : Planned w hosts padding platform first last p)
    (hlengths : ∀ t ∈ w.tasks, t.length.isNegative = false) {t : Task} (ht : t ∈ w.tasks)
    {cost : Cost Rat} (hcost : first.costs.lookup t.id = some cost) :
    0 ≤ cost.comp ∧ 0 ≤ cost.transfer := by
  obtain ⟨cost', hlookup, hparts⟩ := h.starts.cost_of_mem ht
  obtain rfl : cost = cost' := Option.some.inj (hcost.symm.trans hlookup)
  unfold Platform.cost at hparts
  simp only [bind_eq_ok_iff, pure_eq_ok_iff] at hparts
  obtain ⟨comp, hcomp, transfer, htransfer, rfl⟩ := hparts
  exact ⟨Platform.compTime_nonneg h.hosts (hlengths t ht) hcomp,
    not_lt.mp (Platform.transferTime_nonneg htransfer)⟩

/-- So no task of a draft costs less than nothing. -/
theorem Planned.total_nonneg (h : Planned w hosts padding platform first last p)
    (hlengths : ∀ t ∈ w.tasks, t.length.isNegative = false) {id : Int} {cost : Cost Rat}
    (hcost : first.costOf id = .ok cost) (hid : id ∈ w.ids) : 0 ≤ cost.total := by
  obtain ⟨t, ht, rfl⟩ := List.mem_map.mp hid
  obtain ⟨hcomp, htransfer⟩ := h.cost_nonneg hlengths ht (Draft.costOf_eq_ok_iff.mp hcost)
  exact Rat.add_nonneg (Rat.add_nonneg htransfer htransfer) hcomp

/-- A parent is sent before its child, unless the child is an ancestor of it. -/
theorem Planned.sendStart_lt_of_parent (h : Planned w hosts padding platform first last p)
    (hlengths : ∀ t ∈ w.tasks, t.length.isNegative = false) {parent child : Int}
    (hparent : parent ∈ w.parentsOf child) (hcycle : ¬w.Ancestor child parent) :
    ∃ pslot i cslot j, p.find? parent = some (pslot, i) ∧ p.find? child = some (cslot, j) ∧
      pslot.sendStart < cslot.sendStart := by
  have hnum := p.hasNumericSlots_rat
  obtain ⟨pslot, i, cslot, j, hp, hc, hreceived⟩ := (h.precedes hnum hparent hcycle).received
  obtain ⟨slot, rank, cost, hfind, hcost, hend⟩ := h.endsAfter hnum hp Rat.le_refl
  obtain ⟨rfl, -⟩ := Prod.mk.inj (Option.some.inj (hp.symm.trans hfind))
  have hid : parent ∈ w.ids := List.contains_iff_mem.mp (h.reciprocal.contains_parent hparent)
  have htotal := h.total_nonneg hlengths hcost hid
  have hend : pslot.sendStart + cost.total ≤ pslot.receiveEnd := by
    rw [← endFrom_eq]
    exact hend Rat.le_refl
  have hreceived : pslot.receiveEnd + 1 ≤ cslot.sendStart := hreceived
  exact ⟨pslot, i, cslot, j, hp, hc, by linarith⟩

/-- **Starts grow**: an ancestor is sent before its descendants. -/
theorem Planned.sendStart_lt (h : Planned w hosts padding platform first last p)
    (hlengths : ∀ t ∈ w.tasks, t.length.isNegative = false) (hacyclic : w.Acyclic)
    {ancestor id : Int} (hanc : w.Ancestor ancestor id) :
    ∃ aslot i slot j, p.find? ancestor = some (aslot, i) ∧ p.find? id = some (slot, j) ∧
      aslot.sendStart < slot.sendStart := by
  have hlink {parent child : Int} (hparent : parent ∈ w.parentsOf child) :=
    h.sendStart_lt_of_parent hlengths hparent fun hback => hacyclic child (hback.tail hparent)
  induction hanc with
  | single hparent => exact hlink hparent
  | @tail parent child _ hparent ih =>
      obtain ⟨aslot, i, pslot, j, ha, hp, hlt⟩ := ih
      obtain ⟨pslot', j', cslot, k, hp', hc, hlt'⟩ := hlink hparent
      obtain ⟨rfl, -⟩ := Prod.mk.inj (Option.some.inj (hp.symm.trans hp'))
      exact ⟨aslot, i, cslot, k, ha, hc, lt_trans hlt hlt'⟩

/-- **Priorities never contradict dependencies**: in exact arithmetic, if no length is negative and
there is no cycle, every ancestor of a task has a smaller rank than the task, and the list of
tasks by rank is a topological order. -/
theorem topological_of_build {bound : Int} (h : build Rat w hosts bound padding = .ok p)
    (hlengths : ∀ t ∈ w.tasks, t.length.isNegative = false) (hacyclic : w.Acyclic) :
    (∀ ancestor id, w.Ancestor ancestor id → ∃ aslot i slot j,
      p.find? ancestor = some (aslot, i) ∧ p.find? id = some (slot, j) ∧ i < j) ∧
    p.priority.Perm w.ids ∧ p.priority.Pairwise fun a b => ¬w.Ancestor b a := by
  obtain ⟨platform, first, last, hplanned⟩ := planned_of_build h
  have hranked := hplanned.ranked p.hasNumericSlots_rat
  have hlt (ancestor id : Int) (hanc : w.Ancestor ancestor id) : ∃ aslot i slot j,
      p.find? ancestor = some (aslot, i) ∧ p.find? id = some (slot, j) ∧ i < j := by
    obtain ⟨aslot, i, slot, j, ha, hid, hlt⟩ := hplanned.sendStart_lt hlengths hacyclic hanc
    exact ⟨aslot, i, slot, j, ha, hid,
      (hranked.ordered ancestor aslot i id slot j ha hid).mpr (.inl hlt)⟩
  refine ⟨hlt, hplanned.perm_priority, ?_⟩
  rw [List.pairwise_iff_getElem]
  intro i j hi hj hij hanc
  obtain ⟨aslot, k, slot, l, ha, hid, hkl⟩ := hlt _ _ hanc
  have hk : j = k := (List.getElem?_inj hj hplanned.nodup_priority).mp
    ((List.getElem?_eq_getElem hj).trans (hranked.priority _ _ _ ha).symm)
  have hl : i = l := (List.getElem?_inj hi hplanned.nodup_priority).mp
    ((List.getElem?_eq_getElem hi).trans (hranked.priority _ _ _ hid).symm)
  omega

/-- The diamond is planned in a topological order. -/
theorem topological_diamond :
    build Rat diamond [loopHost] 3 1 = .ok (diamondPlan Rat) ∧
      (∀ t ∈ diamond.tasks, t.length.isNegative = false) ∧ diamond.Acyclic ∧
      (diamondPlan Rat).priority.Pairwise fun a b => ¬diamond.Ancestor b a := by
  have hlengths : ∀ t ∈ diamond.tasks, t.length.isNegative = false := by decide +kernel
  exact ⟨build_diamond_rat, hlengths, acyclic_diamond,
    (topological_of_build build_diamond_rat hlengths acyclic_diamond).2.2⟩

end Plan

end SharedLink
