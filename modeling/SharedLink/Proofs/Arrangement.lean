import SharedLink.Proofs.Entries
import SharedLink.Proofs.Selections
import SharedLink.Proofs.Stability
import SharedLink.Proofs.Trials

/-!
# SharedLink.Proofs.Arrangement

Which order of its parents a task is given.

A few parents are tried in all orders.  Each order is offered with the end that its trial
gives, in the order in which the orderings are listed, so the one that is held is the first
of those with the least end; and as every list is its own first ordering, parents that are
best placed as they are listed stay so.  Many parents are sorted by their costs.

* `split_of_arrange` — the order that is chosen, among all orderings;
* `arrange_le` — no trial gives less than that of the order that is chosen;
* `stablySorted_of_byPrice` — sorting by prices is stable;
* `chooses_of_begun` — both choices, for any list of known tasks and whatever is placed.
-/

namespace SharedLink

open Timescale

namespace Draft

variable {τ : Type} [Timescale τ] {w : Workflow} {d : Draft τ} {bound : Int}
  {parents chosen : List Int}

section

/-! ## a few parents -/

variable [Ordered τ]

/-- **The order that is chosen** for a few parents stands among the orderings behind those of which
no trial gives as little, and in front of those of which none gives less. -/
theorem split_of_arrange (hbound : parents.length ≤ bound)
    (h : d.arrange w bound parents = .ok chosen) :
    ∃ value front back, orderings parents = front ++ chosen :: back ∧
      d.trial w chosen = .ok value ∧
      (∀ order ∈ front, ∃ other, d.trial w order = .ok other ∧ ¬other ≤ value) ∧
      ∀ order ∈ back, ∃ other, d.trial w order = .ok other ∧ ¬other < value := by
  unfold arrange at h
  rw [if_neg (Int.not_lt.mpr hbound)] at h
  obtain ⟨tried, htried, hbest⟩ := bind_eq_ok_iff.mp h
  obtain ⟨hkeys, htrials⟩ := keyed_of_mapM (fun order pair hpair => by
    obtain ⟨value, -, hpair⟩ := bind_eq_ok_iff.mp hpair
    rw [← Except.ok.inj hpair]) htried
  have hvalues (pair : τ × List Int) (hpair : pair ∈ tried) :
      d.trial w pair.2 = .ok pair.1 := by
    obtain ⟨value, hvalue, hsame⟩ := bind_eq_ok_iff.mp (htrials pair hpair)
    rwa [← congrArg Prod.fst (Except.ok.inj hsame)]
  cases hheld : Selection.firstLeast (fun a b => decide (a < b)) tried with
  | none =>
      have hhead := head?_orderings parents
      rw [← hkeys, Selection.firstLeast_eq_none_iff.mp hheld] at hhead
      cases hhead
  | some held =>
      rw [hheld] at hbest
      obtain rfl : held.2 = chosen := Except.ok.inj hbest
      obtain ⟨front, back, rfl, hfront, hback⟩ :=
        Selection.splits_of_firstLeast ahead_lt (fun _ _ => trivial) hheld
      rw [List.map_append, List.map_cons] at hkeys
      obtain ⟨hvfront, hvrest⟩ := List.forall_mem_append.mp hvalues
      obtain ⟨hvheld, hvback⟩ := List.forall_mem_cons.mp hvrest
      refine ⟨held.1, front.map (·.2), back.map (·.2), hkeys.symm, hvheld,
        List.forall_mem_map.mpr fun y hy => ⟨y.1, hvfront y hy, hfront y hy⟩,
        List.forall_mem_map.mpr fun y hy => ⟨y.1, hvback y hy, of_decide_eq_false (hback y hy)⟩⟩

/-- No trial gives NaN. -/
def TrialsNumeric (w : Workflow) (d : Draft τ) (parents : List Int) : Prop :=
  ∀ order value, order.Perm parents → d.trial w order = .ok value → IsNumber value

/-- **The best order**: if no trial gives NaN, then none gives less than that of the order that is
chosen. -/
theorem arrange_le (hbound : parents.length ≤ bound) (hnum : TrialsNumeric w d parents)
    (h : d.arrange w bound parents = .ok chosen) {value : τ} (hvalue : d.trial w chosen = .ok value)
    {order : List Int} (horder : order.Perm parents) {other : τ}
    (hother : d.trial w order = .ok other) : value ≤ other := by
  obtain ⟨least, front, back, hsplit, hleast, hfront, hback⟩ := split_of_arrange hbound h
  obtain rfl : least = value := Except.ok.inj (hleast.symm.trans hvalue)
  have hchosen : chosen.Perm parents := by
    rw [← mem_orderings_iff, hsplit]
    exact List.mem_append_right _ List.mem_cons_self
  have hvalue : IsNumber least := hnum chosen least hchosen hleast
  have hnumber : IsNumber other := hnum order other horder hother
  have hmem : order ∈ front ++ chosen :: back := hsplit ▸ mem_orderings_iff.mpr horder
  obtain hmem | rfl | hmem := (List.mem_append.mp hmem).imp_right List.mem_cons.mp
  · obtain ⟨_, hfound, hle⟩ := hfront order hmem
    obtain rfl := Except.ok.inj (hother.symm.trans hfound)
    exact (Ordered.le_total hvalue hnumber).resolve_right hle
  · rwa [Except.ok.inj (hother.symm.trans hleast)]
  · obtain ⟨_, hfound, hlt⟩ := hback order hmem
    obtain rfl := Except.ok.inj (hother.symm.trans hfound)
    exact le_of_not_lt hnumber hvalue hlt

/-- An order of which the trial is the least of all, and the first one of these among the
orderings, so that a list is kept if it is among them. -/
structure ChoosesBest (w : Workflow) (d : Draft τ) (parents chosen : List Int) : Prop where
  least : ∃ value, d.trial w chosen = .ok value ∧
    (∀ order, order.Perm parents → ∃ other, d.trial w order = .ok other ∧ value ≤ other) ∧
    ∃ front back, orderings parents = front ++ chosen :: back ∧
      ∀ order ∈ front, ∃ other, d.trial w order = .ok other ∧ value < other
  kept : (∀ value, d.trial w parents = .ok value → ∀ order other, order.Perm parents →
    d.trial w order = .ok other → value ≤ other) → chosen = parents

/-- A few parents get the best order. -/
theorem choosesBest_of_arrange (hbound : parents.length ≤ bound)
    (hnum : TrialsNumeric w d parents) (h : d.arrange w bound parents = .ok chosen) :
    ChoosesBest w d parents chosen := by
  obtain ⟨value, front, back, hsplit, hvalue, hfront, hback⟩ := split_of_arrange hbound h
  have hperm {order : List Int} (horder : order ∈ front ++ chosen :: back) : order.Perm parents :=
    mem_orderings_iff.mp (hsplit ▸ horder)
  have hchosen : IsNumber value :=
    hnum chosen value (hperm (List.mem_append_right _ List.mem_cons_self)) hvalue
  have hlater : ∀ order ∈ front, ∃ other, d.trial w order = .ok other ∧ value < other := by
    intro order horder
    obtain ⟨other, hother, hle⟩ := hfront order horder
    have hnumber : IsNumber other :=
      hnum order other (hperm (List.mem_append_left _ horder)) hother
    refine ⟨other, hother, Ordered.lt_iff.mpr ⟨?_, hle⟩⟩
    exact (Ordered.le_total hchosen hnumber).resolve_right hle
  refine ⟨⟨value, hvalue, fun order horder => ?_, front, back, hsplit, hlater⟩, fun hfirst => ?_⟩
  · have hmem : order ∈ front ++ chosen :: back := hsplit ▸ mem_orderings_iff.mpr horder
    have hfound : ∃ other, d.trial w order = .ok other := by
      obtain hmem | rfl | hmem := (List.mem_append.mp hmem).imp_right List.mem_cons.mp
      · exact (hfront order hmem).imp fun _ hother => hother.1
      · exact ⟨value, hvalue⟩
      · exact (hback order hmem).imp fun _ hother => hother.1
    obtain ⟨other, hother⟩ := hfound
    exact ⟨other, hother, arrange_le hbound hnum h hvalue horder hother⟩
  · have hhead : (front ++ chosen :: back).head? = some parents := hsplit ▸ head?_orderings parents
    cases front with
    | nil => exact Option.some.inj hhead
    | cons order front =>
        obtain rfl : order = parents := Option.some.inj hhead
        obtain ⟨other, hother, hlt⟩ := hlater order List.mem_cons_self
        have hle := hfirst other hother chosen value
          (hperm (List.mem_append_right _ List.mem_cons_self)) hvalue
        exact absurd hlt (not_lt_of_le hle)

/-! ## many parents -/

/-- What is put in the order of its prices, the highest first, is stably sorted by them. -/
theorem stablySorted_of_byPrice {α : Type} {price : α → Except Fault (τ × α)} {total : α → τ}
    {xs order : List α} (hprice : ∀ x ∈ xs, price x = .ok (total x, x))
    (hnum : ∀ x ∈ xs, IsNumber (total x))
    (h : (xs.mapM price >>= fun priced =>
      return (sortBy (fun a b => decide (b.1 < a.1)) priced).map (·.2)) = .ok order) :
    StablySorted (fun x y => decide (total y < total x)) xs order := by
  obtain ⟨priced, hpriced, horder⟩ := bind_eq_ok_iff.mp h
  rw [mapM_eq_ok_map hprice] at hpriced
  rw [← Except.ok.inj horder, ← Except.ok.inj hpriced, sortBy_map, List.map_map]
  have hsame : (·.2) ∘ (fun x => (total x, x)) = (id : α → α) := rfl
  rw [hsame, List.map_id]
  exact stablySorted_sortBy (strictWeakOn_lt total).swap hnum

/-- The expected cost of a task with both of its transfers, zero if it is not known. -/
def totalOf (d : Draft τ) (id : Int) : τ := ((d.costs.lookup id).map (·.total)).getD 0

omit [Ordered τ] in
theorem totalOf_eq {id : Int} {cost : Cost τ} (h : d.costOf id = .ok cost) :
    d.totalOf id = cost.total := by
  unfold totalOf
  rw [costOf_eq_ok_iff.mp h]
  rfl

/-- Many parents are sorted by their costs, the highest first. -/
theorem stablySorted_of_byCost (hnum : ∀ id ∈ parents, IsNumber (d.totalOf id))
    (hknown : ∀ id ∈ parents, ∃ cost, d.costOf id = .ok cost)
    (h : d.byCost parents = .ok chosen) :
    StablySorted (fun a b => decide (d.totalOf b < d.totalOf a)) parents chosen := by
  refine stablySorted_of_byPrice (fun id hid => ?_) hnum h
  obtain ⟨cost, hcost⟩ := hknown id hid
  rw [totalOf_eq hcost]
  exact bind_eq_ok_iff.mpr ⟨cost, hcost, rfl⟩

end

/-! ## any list of known tasks -/

/-- A draft with the costs and the padding that were found when it was started, whatever has
been placed and reserved since and however the workflow has grown. -/
def Begun (d : Draft τ) : Prop :=
  ∃ former platform padding first, start former platform padding = .ok first ∧
    d.costs = first.costs ∧ d.padding = first.padding

/-- How the parents of a task are put in order: the best order for at most `bound` of them, if no
trial gives NaN, and by decreasing cost for more, if no cost is NaN. -/
structure Chooses (w : Workflow) (d : Draft τ) (bound : Int) (parents chosen : List Int) :
    Prop where
  perm : chosen.Perm parents
  few : parents.length ≤ bound → TrialsNumeric w d parents → ChoosesBest w d parents chosen
  many : bound < parents.length → (∀ id ∈ parents, IsNumber (d.totalOf id)) →
    StablySorted (fun a b => decide (d.totalOf b < d.totalOf a)) parents chosen

variable [Arithmetic τ]

/-- A draft that has begun can fit every task with a known cost. -/
theorem Begun.fittable (hd : d.Begun) {id : Int} (hid : w.contains id = true)
    {cost : Cost τ} (hcost : d.costOf id = .ok cost) : Fittable w d id := by
  obtain ⟨former, platform, padding, first, hstart, hcosts, hpadding⟩ := hd
  have hstarts := starts_of_start hstart
  have hlookup := costOf_eq_ok_iff.mp hcost
  refine ⟨hid, ⟨cost, hlookup, ?_⟩, ?_⟩
  · rw [hcosts] at hlookup
    exact hstarts.transfer_nonneg hlookup
  · rw [hpadding]
    exact hstarts.padding_nonneg

/-- **Arranging** any list of known tasks, some of them repeated or none at all, gives an order of
it: of a few the first of the best orders, of many the stable one by decreasing cost. -/
theorem chooses_of_begun (hd : d.Begun) (bound : Int)
    (hparents : ∀ id ∈ parents, w.contains id = true ∧ ∃ cost, d.costOf id = .ok cost) :
    ∃ chosen, d.arrange w bound parents = .ok chosen ∧ Chooses w d bound parents chosen := by
  have hfittable (id : Int) (hid : id ∈ parents) : Fittable w d id := by
    obtain ⟨htask, cost, hcost⟩ := hparents id hid
    exact hd.fittable htask hcost
  obtain ⟨chosen, hchosen, hperm⟩ := exists_arrange bound hfittable
  refine ⟨chosen, hchosen, hperm, fun hbound hnum => ?_, fun hbound hnum => ?_⟩
  · exact choosesBest_of_arrange hbound hnum hchosen
  · refine stablySorted_of_byCost hnum (fun id hid => (hparents id hid).2) ?_
    unfold arrange at hchosen
    rwa [if_pos hbound] at hchosen

/-- A short and a long computation behind a first task. -/
def uneven : Workflow where
  tasks := [
    { Task.make 1 1 1 none none with children := [2, 3] },
    { Task.make 2 2 1 none none with
      parents := [1], files := [{ name := "part", size := 5, kind := .output }] },
    { Task.make 3 20 1 none none with
      parents := [1], files := [{ name := "data", size := 5, kind := .output }] }]
  nodup_ids := by decide

/-- The draft that planning this workflow starts with, with a padding of one second. -/
def unevenDraft : Draft Float where
  padding := 1
  costs := [(1, ⟨1, 0⟩), (2, ⟨2, 5⟩), (3, ⟨20, 5⟩)]
  timeline := .empty
  placed := []

theorem start_uneven : (do start uneven (← Platform.ofHosts Float [Plan.loopHost]) 1) =
    .ok unevenDraft := by decide +kernel

/-- The long computation goes first, whether a parent that is listed twice counts as one of a few
or as one of many. -/
theorem chooses_uneven :
    (unevenDraft.settle uneven 1).1.Begun ∧
      TrialsNumeric uneven (unevenDraft.settle uneven 1).1 [2, 3, 2] ∧
      ChoosesBest uneven (unevenDraft.settle uneven 1).1 [2, 3, 2] [3, 2, 2] ∧
      StablySorted (fun a b => decide ((unevenDraft.settle uneven 1).1.totalOf b <
        (unevenDraft.settle uneven 1).1.totalOf a)) [2, 3, 2] [3, 2, 2] := by
  have hbegun : (unevenDraft.settle uneven 1).1.Begun := by
    obtain ⟨platform, -, hstart⟩ := bind_eq_ok_iff.mp start_uneven
    exact ⟨uneven, platform, 1, unevenDraft, hstart, by decide +kernel, by decide +kernel⟩
  have hparents : ∀ id ∈ [2, 3, 2], uneven.contains id = true ∧
      ∃ cost, (unevenDraft.settle uneven 1).1.costOf id = .ok cost := by
    have htwo : (unevenDraft.settle uneven 1).1.costOf 2 = .ok ⟨2, 5⟩ := by decide +kernel
    have hthree : (unevenDraft.settle uneven 1).1.costOf 3 = .ok ⟨20, 5⟩ := by decide +kernel
    simp only [List.forall_mem_cons, htwo, hthree]
    exact ⟨⟨by decide, _, rfl⟩, ⟨by decide, _, rfl⟩, ⟨by decide, _, rfl⟩, by simp⟩
  have hnum : TrialsNumeric uneven (unevenDraft.settle uneven 1).1 [2, 3, 2] := by
    have hvalues : ∀ order ∈ orderings [2, 3, 2],
        ((unevenDraft.settle uneven 1).1.trial uneven order).toOption.all (fun value =>
          decide (IsNumber value)) = true := by decide +kernel
    intro order value hperm htrial
    have hvalue := hvalues order (mem_orderings_iff.mpr hperm)
    rw [htrial] at hvalue
    exact of_decide_eq_true hvalue
  obtain ⟨few, hfew, hchoosesFew⟩ := chooses_of_begun hbegun 3 hparents
  obtain ⟨many, hmany, hchoosesMany⟩ := chooses_of_begun hbegun 2 hparents
  have hfew' : (unevenDraft.settle uneven 1).1.arrange uneven 3 [2, 3, 2] = .ok [3, 2, 2] := by
    decide +kernel
  have hmany' : (unevenDraft.settle uneven 1).1.arrange uneven 2 [2, 3, 2] = .ok [3, 2, 2] := by
    decide +kernel
  obtain rfl : few = [3, 2, 2] := Except.ok.inj (hfew.symm.trans hfew')
  obtain rfl : many = [3, 2, 2] := Except.ok.inj (hmany.symm.trans hmany')
  exact ⟨hbegun, hnum, hchoosesFew.few (by decide) hnum,
    hchoosesMany.many (by decide) (by decide +kernel)⟩

end Draft

end SharedLink
