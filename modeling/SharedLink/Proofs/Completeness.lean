import SharedLink.Proofs.Doubles
import SharedLink.Proofs.Legs

/-!
# SharedLink.Proofs.Completeness

Every plan is complete, and its ranks are dense.

A rank is a place in the list of all tasks, sorted by the starts of their send legs
and by their ids.  As long as no start is NaN this is a strict order on the tasks, so
ranks compare just as the starts and the ids do.

* `Plan.Ranked` — the ranks of all tasks, from zero on, in order;
* `Plan.Reserved` — two reservations for every task, in order, and no others;
* `complete_of_build` — every plan has all of this, whatever cycles its workflow has.
-/

namespace SharedLink

open Timescale

variable {τ : Type} [Timescale τ]

namespace Plan

/-- The tasks of a workflow have the ranks from zero on, one each, in the order of the
starts of their send legs, and of their ids where those are the same. -/
structure Ranked (p : Plan τ) (w : Workflow) : Prop where
  keys : ∀ id, id ∈ w.ids ↔ ∃ slot rank, p.find? id = some (slot, rank)
  bounded : ∀ id slot rank, p.find? id = some (slot, rank) → rank < w.tasks.length
  onto : ∀ rank < w.tasks.length, ∃ id slot, p.find? id = some (slot, rank)
  injective : ∀ a aslot b bslot rank, p.find? a = some (aslot, rank) →
    p.find? b = some (bslot, rank) → a = b
  ordered : ∀ a aslot i b bslot j, p.find? a = some (aslot, i) → p.find? b = some (bslot, j) →
    (i < j ↔ aslot.sendStart < bslot.sendStart ∨
      (aslot.sendStart ≤ bslot.sendStart ∧ bslot.sendStart ≤ aslot.sendStart ∧ a < b))
  priority : ∀ id slot rank, p.find? id = some (slot, rank) → p.priority[rank]? = some id

/-- The reservations are the legs of all tasks, padded, in order. -/
structure Reserved (p : Plan τ) (w : Workflow) (transfer : Int → τ) (margin : τ) : Prop where
  padded : p.timeline.intervals.Perm ((p.legs transfer).map (·.padded margin))
  length : p.timeline.intervals.length = 2 * w.tasks.length
  sorted : Sorted Timeline.before p.timeline.intervals

/-! ## the order of entries -/

theorem entryBefore_eq_lex : (entryBefore : Int × Slot τ → Int × Slot τ → Bool) =
    lex (fun entry => entry.2.sendStart) fun a b => decide (a.1 < b.1) := rfl

theorem strictWeakOn_entryBefore [Ordered τ] :
    StrictWeakOn entryBefore fun entry : Int × Slot τ => IsNumber entry.2.sendStart ∧ True := by
  refine strictWeakOn_lex ⟨fun _ _ h => ?_, fun _ _ _ hab hbc => ?_⟩
  · exact decide_eq_false (Int.lt_asymm (of_decide_eq_true h))
  · have hab := of_decide_eq_false hab
    have hbc := of_decide_eq_false hbc
    exact decide_eq_false (by omega)

/-- Of two entries with different ids, neither of them NaN, the one that does not come
behind the other comes before it. -/
theorem entryBefore_of_not [Ordered τ] {a b : Int × Slot τ} (ha : a.2.IsNumeric)
    (hb : b.2.IsNumeric) (hne : a.1 ≠ b.1) (h : entryBefore b a = false) :
    entryBefore a b = true := by
  rw [entryBefore_eq_lex] at h ⊢
  obtain ⟨hle, hid⟩ := (lex_eq_false_iff (by exact ha.1) (by exact hb.1)).mp h
  rw [lex_iff]
  by_cases hback : b.2.sendStart ≤ a.2.sendStart
  · have hid := of_decide_eq_false (hid hback)
    exact .inr ⟨hle, hback, decide_eq_true (by omega)⟩
  · exact .inl (Ordered.lt_iff.mpr ⟨hle, hback⟩)

variable {w : Workflow} {hosts : List Host} {padding : Quantity} {platform : Platform τ}
  {first last : Draft τ} {p : Plan τ}

theorem Planned.sorted_entries [Ordered τ] (h : Planned w hosts padding platform first last p)
    (hslots : p.HasNumericSlots) : Sorted entryBefore p.entries := by
  have hplaced : ∀ entry ∈ last.placed, IsNumber entry.2.sendStart ∧ True := fun entry he =>
    ⟨(hslots entry (h.perm_entries.mem_iff.mpr he)).1, trivial⟩
  rw [h.entries]
  exact sorted_sortBy strictWeakOn_entryBefore hplaced

/-- **Ranks**: the entries are sorted strictly, as different places hold different ids, so places
and entries compare alike. -/
theorem Planned.lt_iff_entryBefore [Ordered τ]
    (h : Planned w hosts padding platform first last p) (hslots : p.HasNumericSlots) {i j : Nat}
    {a b : Int × Slot τ} (ha : p.entries[i]? = some a) (hb : p.entries[j]? = some b) :
    i < j ↔ entryBefore a b = true := by
  obtain ⟨hi, rfl⟩ := List.getElem?_eq_some_iff.mp ha
  obtain ⟨hj, rfl⟩ := List.getElem?_eq_some_iff.mp hb
  have hsorted := h.sorted_entries hslots
  have hnum {k : Nat} (hk : k < p.entries.length) : p.entries[k].2.IsNumeric :=
    hslots _ (List.getElem_mem hk)
  constructor
  · intro hij
    refine entryBefore_of_not (hnum hi) (hnum hj) (fun hid => ?_) (hsorted.before_getElem hij hi hj)
    have hsame : p.priority[i]? = p.priority[j]? := by
      unfold priority
      rw [List.getElem?_map, List.getElem?_map, ha, hb, Option.map_some, Option.map_some, hid]
    have hlt : i < p.priority.length := by
      unfold priority
      rw [List.length_map]
      exact hi
    exact absurd ((List.getElem?_inj hlt h.nodup_priority).mp hsame) (Nat.ne_of_lt hij)
  · intro hbefore
    by_contra hij
    cases Nat.lt_or_eq_of_le (Nat.le_of_not_lt hij) with
    | inl hji =>
        rw [hsorted.before_getElem hji hj hi] at hbefore
        cases hbefore
    | inr heq =>
        subst heq
        have hirrefl := strictWeakOn_entryBefore.asymm ⟨(hnum hi).1, trivial⟩
          ⟨(hnum hi).1, trivial⟩ hbefore
        rw [hbefore] at hirrefl
        cases hirrefl

theorem Planned.ranked [Ordered τ] (h : Planned w hosts padding platform first last p)
    (hslots : p.HasNumericSlots) : p.Ranked w := by
  have hlength : p.entries.length = w.tasks.length := by
    have hlength := h.perm_priority.length_eq
    unfold priority Workflow.ids at hlength
    rwa [List.length_map, List.length_map] at hlength
  have hentry {id : Int} {slot : Slot τ} {rank : Nat} (hfind : p.find? id = some (slot, rank)) :
      p.entries[rank]? = some (id, slot) := (find?_eq_some_iff h.nodup_priority).mp hfind
  constructor
  case keys =>
    intro id
    constructor
    · exact h.exists_find?
    · intro ⟨slot, rank, hfind⟩
      rw [← h.perm_priority.mem_iff]
      exact List.mem_map_of_mem (List.mem_of_getElem? (hentry hfind))
  case bounded =>
    intro id slot rank hfind
    rw [← hlength]
    exact (List.getElem?_eq_some_iff.mp (hentry hfind)).1
  case onto =>
    intro rank hrank
    rw [← hlength] at hrank
    refine ⟨p.entries[rank].1, p.entries[rank].2, ?_⟩
    rw [find?_eq_some_iff h.nodup_priority]
    exact List.getElem?_eq_getElem hrank
  case injective =>
    intro a aslot b bslot rank ha hb
    have hsame := (hentry ha).symm.trans (hentry hb)
    exact congrArg Prod.fst (Option.some.inj hsame)
  case ordered =>
    intro a aslot i b bslot j ha hb
    rw [h.lt_iff_entryBefore hslots (hentry ha) (hentry hb), entryBefore_eq_lex, lex_iff,
      decide_eq_true_eq]
  case priority =>
    intro id slot rank hfind
    unfold priority
    rw [List.getElem?_map, hentry hfind, Option.map_some]

theorem Planned.reserved [Ordered τ] (h : Planned w hosts padding platform first last p)
    (hnum : p.timeline.IsNumeric) : p.Reserved w last.transferOf last.padding where
  padded := h.perm_timeline
  length := by rw [h.perm_timeline.length_eq, List.length_map, h.length_legs]
  sorted := h.sorted_timeline hnum

/-- **Completeness**: a plan without NaN places every task exactly once, ranks all tasks
from zero on, and reserves nothing but their two legs. -/
theorem complete_of_build [Ordered τ] {bound : Int} (h : build τ w hosts bound padding = .ok p)
    (hslots : p.HasNumericSlots) (hnum : p.timeline.IsNumeric) :
    p.order.Perm w.ids ∧ p.priority.Perm w.ids ∧ p.Ranked w ∧
      ∃ transfer margin, Terms w hosts padding transfer margin ∧ p.UsesLink w transfer ∧
        p.Reserved w transfer margin := by
  obtain ⟨platform, first, last, hplanned⟩ := planned_of_build h
  exact ⟨hplanned.perm_order, hplanned.perm_priority, hplanned.ranked hslots, last.transferOf,
    last.padding, hplanned.terms, hplanned.usesLink, hplanned.reserved hnum⟩

/-- A workflow with a cycle is planned completely, too. -/
theorem complete_loop :
    build Float loop [loopHost] 3 1 = .ok (loopPlan Float) ∧
      (loopPlan Float).HasNumericSlots ∧ (loopPlan Float).timeline.IsNumeric ∧
      (loopPlan Float).order.Perm loop.ids ∧ (loopPlan Float).Ranked loop := by
  have hslots : (loopPlan Float).HasNumericSlots := by decide +kernel
  have hnum : (loopPlan Float).timeline.IsNumeric := by decide +kernel
  obtain ⟨horder, -, hranked, -⟩ := complete_of_build build_loop_float hslots hnum
  exact ⟨build_loop_float, hslots, hnum, horder, hranked⟩

end Plan

end SharedLink
