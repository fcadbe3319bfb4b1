import SharedLink.Proofs.Durations
import SharedLink.Proofs.Permutations

/-!
# SharedLink.Proofs.Trials

Why trying cannot fail.

A leg starts no later than it stops, for no transfer takes a negative time and the
padding is not negative, so the link can always be reserved for it; this holds
whatever a search for a gap gives, NaN and the infinities included.  A task whose
cost is known can therefore be fitted anywhere, and every order of known tasks
can be tried.

* `exists_reserve` — no padded leg stops before it starts;
* `exists_fit` — a known task fits on every timeline, after parents with any ends;
* `exists_arrange` — the parents of a task are tried in all orders and one is chosen.
-/

namespace SharedLink

open Timescale

variable {τ : Type} [Timescale τ]

/-! ## reservations -/

/-- A leg with its padding can always be reserved. -/
theorem Timeline.exists_reserve [Arithmetic τ] (line : Timeline τ) (start : τ)
    {transfer padding : τ} (htransfer : ¬transfer < 0) (hpadding : ¬padding < 0) :
    ∃ line', line.reserve (start - padding) (start + transfer + padding) = .ok line' := by
  have hordered : ¬start + transfer + padding < start - padding := by
    intro h
    have hstop : IsNumber (start + transfer + padding) := Ordered.isNumber_left (le_of_lt h)
    have hstart : IsNumber (start - padding) := Ordered.isNumber_right (le_of_lt h)
    refine not_lt_of_le ?_ h
    calc
      start - padding ≤ start := Arithmetic.sub_le hpadding hstart
      _ ≤ start + transfer := le_add htransfer (Ordered.isNumber_of_add hstop)
      _ ≤ start + transfer + padding := le_add hpadding hstop
  exact ⟨_, if_neg hordered⟩

namespace Draft

/-! ## fitting -/

/-- A draft that knows the cost of every task, with transfers and a padding that are
not negative. -/
structure Prepared (w : Workflow) (d : Draft τ) : Prop where
  known : ∀ id, w.contains id = true → ∃ cost, d.costs.lookup id = some cost ∧ ¬cost.transfer < 0
  padding : ¬d.padding < 0

/-- No transfer takes a negative time when a draft is started. -/
theorem Starts.transfer_nonneg [Arithmetic τ] {w : Workflow} {platform : Platform τ}
    {padding : Quantity} {d : Draft τ} (h : Starts w platform padding d) {id : Int} {cost : Cost τ}
    (hcost : d.costs.lookup id = some cost) : ¬cost.transfer < 0 := by
  obtain ⟨t, -, -, ht⟩ := source_of_lookup (fun t cost => platform.cost t = .ok cost) h.costs hcost
  unfold Platform.cost at ht
  simp only [bind_eq_ok_iff, pure_eq_ok_iff] at ht
  obtain ⟨comp, -, transfer, htransfer, rfl⟩ := ht
  exact Platform.transferTime_nonneg htransfer

/-- Nor is the padding negative. -/
theorem Starts.padding_nonneg [Arithmetic τ] {w : Workflow} {platform : Platform τ}
    {padding : Quantity} {d : Draft τ} (h : Starts w platform padding d) : ¬d.padding < 0 := by
  cases h.padding with
  | inl hpadding => exact Arithmetic.ofQuantity_nonneg h.nonneg (timeOf_eq_ok_iff.mp hpadding)
  | inr hempty =>
      rw [hempty.2]
      exact not_lt_of_le Ordered.isNumber_zero

/-- Drafts are started so. -/
theorem Starts.prepared [Arithmetic τ] {w : Workflow} {platform : Platform τ} {padding : Quantity}
    {d : Draft τ} (h : Starts w platform padding d) : Prepared w d where
  known id hid := by
    obtain ⟨t, ht⟩ := Workflow.contains_iff_find?.mp hid
    obtain ⟨cost, hlookup, -⟩ := h.cost_of_mem (List.mem_of_find?_eq_some ht)
    rw [Workflow.id_of_find? ht] at hlookup
    exact ⟨cost, hlookup, h.transfer_nonneg hlookup⟩
  padding := h.padding_nonneg

variable {w : Workflow} {d d' : Draft τ}

/-- A task that a draft can fit: it is there, its cost is known, and neither its transfer nor the
padding is negative. -/
structure Fittable (w : Workflow) (d : Draft τ) (id : Int) : Prop where
  task : w.contains id = true
  known : ∃ cost, d.costs.lookup id = some cost ∧ ¬cost.transfer < 0
  padding : ¬d.padding < 0

theorem Prepared.fittable (h : Prepared w d) {id : Int} (hid : w.contains id = true) :
    Fittable w d id :=
  ⟨hid, h.known id hid, h.padding⟩

theorem Prepared.costOf (h : Prepared w d) {id : Int} (hid : w.contains id = true) :
    ∃ cost, d.costOf id = .ok cost := by
  obtain ⟨cost, hcost, -⟩ := h.known id hid
  exact ⟨cost, costOf_eq_ok_iff.mpr hcost⟩

/-- A placement changes neither the costs nor the padding. -/
theorem Prepared.place (h : Prepared w d) {id : Int} (hplace : d.place w id = .ok d') :
    Prepared w d' := by
  obtain ⟨t, cost, slot, sent, -, hplaces⟩ := places_of_place hplace
  refine ⟨?_, ?_⟩
  · rw [hplaces.costs]
    exact h.known
  · rw [hplaces.padding]
    exact h.padding

/-- Placing tasks changes neither the costs nor the padding. -/
theorem Prepared.of_placeAll (h : Prepared w d) {new : List Int}
    (hplaced : d.placeAll w new = (d', none)) : Prepared w d' := by
  induction new generalizing d with
  | nil =>
      obtain ⟨rfl, -⟩ := Prod.mk.inj hplaced
      exact h
  | cons id rest ih =>
      obtain ⟨next, hplace, hrest⟩ := placeAll_cons_iff.mp hplaced
      exact ih (h.place hplace) hrest

theorem Reaches.prepared (hreaches : Reaches w d d') (h : Prepared w d) : Prepared w d' := by
  induction hreaches with
  | refl => exact h
  | place before next last ih => exact ih.place last

variable [Arithmetic τ]

/-- **Fitting**: a task finds its slot on every timeline, whatever ends its parents have. -/
theorem Fittable.exists_fit {id : Int} (h : Fittable w d id) (endOf? : Int → Option τ)
    (line : Timeline τ) : ∃ slot line', d.fit w endOf? id line = .ok (slot, line') := by
  obtain ⟨cost, hcost, htransfer⟩ := h.known
  obtain ⟨t, ht⟩ := Workflow.contains_iff_find?.mp h.task
  let sendStart := line.earliestGap (readyAt endOf? t) cost.transfer
  obtain ⟨sent, hsent⟩ := line.exists_reserve sendStart htransfer h.padding
  let receiveStart := sent.earliestGap (sendStart + cost.transfer + cost.comp) cost.transfer
  obtain ⟨line', hline'⟩ := sent.exists_reserve receiveStart htransfer h.padding
  refine ⟨⟨sendStart, receiveStart, receiveStart + cost.transfer⟩, line', ?_⟩
  unfold fit
  simp only [bind_eq_ok_iff, pure_eq_ok_iff]
  exact ⟨cost, costOf_eq_ok_iff.mpr hcost, t, Workflow.get_eq_ok_iff.mpr ht, sent, hsent, line',
    hline', rfl⟩

theorem Prepared.exists_fit (h : Prepared w d) {id : Int} (hid : w.contains id = true)
    (endOf? : Int → Option τ) (line : Timeline τ) :
    ∃ slot line', d.fit w endOf? id line = .ok (slot, line') :=
  (h.fittable hid).exists_fit endOf? line

/-! ## trying -/

/-- Known tasks can be tried in any order. -/
theorem exists_trialEnds {ids : List Int} (hids : ∀ id ∈ ids, Fittable w d id)
    (line : Timeline τ) (ends : List (Int × τ)) :
    ∃ ends', d.trialEnds w ids line ends = .ok ends' := by
  induction ids generalizing line ends with
  | nil => exact ⟨ends, rfl⟩
  | cons id rest ih =>
      obtain ⟨hid, hrest⟩ := List.forall_mem_cons.mp hids
      obtain ⟨slot, line', hfit⟩ :=
        hid.exists_fit (fun parent => (ends.lookup parent).or (d.endOf? parent)) line
      obtain ⟨ends', hends'⟩ := ih hrest line' (note id slot.receiveEnd ends)
      refine ⟨ends', ?_⟩
      unfold trialEnds
      exact bind_eq_ok_iff.mpr ⟨(slot, line'), hfit, hends'⟩

theorem exists_trial {ids : List Int} (hids : ∀ id ∈ ids, Fittable w d id) :
    ∃ latest, d.trial w ids = .ok latest := by
  obtain ⟨ends, hends⟩ := exists_trialEnds hids d.timeline []
  exact ⟨largest 0 (ends.map (·.2)), bind_eq_ok_iff.mpr ⟨ends, hends, rfl⟩⟩

omit [Arithmetic τ] in
/-- What can be priced can be put in the order of the prices. -/
theorem exists_byPrice {α : Type} {price : α → Except Fault (τ × α)} {xs : List α}
    (h : ∀ x ∈ xs, ∃ cost, price x = .ok (cost, x)) :
    ∃ order, (xs.mapM price >>= fun priced =>
        return (sortBy (fun a b => decide (b.1 < a.1)) priced).map (·.2)) = .ok order ∧
      order.Perm xs := by
  obtain ⟨priced, hpriced, hsame⟩ := exists_mapM_keyed h
  have hperm := (perm_sortBy (fun a b => decide (b.1 < a.1)) priced).map (·.2)
  rw [hsame] at hperm
  exact ⟨_, bind_eq_ok_iff.mpr ⟨priced, hpriced, rfl⟩, hperm⟩

omit [Arithmetic τ] in
/-- Known tasks can be put in the order of their costs. -/
theorem exists_byCost {ids : List Int} (hids : ∀ id ∈ ids, Fittable w d id) :
    ∃ order, d.byCost ids = .ok order ∧ order.Perm ids := by
  refine exists_byPrice fun id hid => ?_
  obtain ⟨cost, hcost, -⟩ := (hids id hid).known
  exact ⟨cost.total, bind_eq_ok_iff.mpr ⟨cost, costOf_eq_ok_iff.mpr hcost, rfl⟩⟩

/-- **Arranging**: the parents of a task are put in one of their orders. -/
theorem exists_arrange (bound : Int) {parents : List Int}
    (hparents : ∀ id ∈ parents, Fittable w d id) :
    ∃ order, d.arrange w bound parents = .ok order ∧ order.Perm parents := by
  unfold arrange
  split
  · exact exists_byCost hparents
  · have htrial (order : List Int) (horder : order ∈ orderings parents) :
        ∃ latest,
          (do return (← d.trial w order, order) : Except Fault _) = .ok (latest, order) := by
      obtain ⟨latest, hlatest⟩ := exists_trial fun id hid =>
        hparents id ((mem_orderings_iff.mp horder).mem_iff.mp hid)
      exact ⟨latest, bind_eq_ok_iff.mpr ⟨latest, hlatest, rfl⟩⟩
    obtain ⟨tried, htried, hsame⟩ := exists_mapM_keyed htrial
    cases hleast : Selection.firstLeast (fun a b => decide (a < b)) tried with
    | none =>
        rw [Selection.firstLeast_eq_none_iff] at hleast
        rw [hleast] at hsame
        have hmem : parents ∈ orderings parents := mem_orderings_iff.mpr (.refl parents)
        rw [← hsame] at hmem
        cases hmem
    | some best =>
        refine ⟨best.2, ?_, mem_orderings_iff.mp ?_⟩
        · exact bind_eq_ok_iff.mpr ⟨tried, htried, by rw [hleast]; rfl⟩
        · rw [← hsame]
          exact List.mem_map_of_mem (Selection.mem_of_firstLeast hleast)

theorem Prepared.exists_arrange (h : Prepared w d) (bound : Int) {parents : List Int}
    (hparents : ∀ id ∈ parents, w.contains id = true) :
    ∃ order, d.arrange w bound parents = .ok order ∧ order.Perm parents :=
  Draft.exists_arrange bound fun id hid => h.fittable (hparents id hid)

end Draft

end SharedLink
