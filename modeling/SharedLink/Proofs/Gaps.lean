import SharedLink.Proofs.Times
import SharedLink.Timeline

/-!
# SharedLink.Proofs.Gaps

What the search for a gap promises.

The search goes through the intervals once and stops at the first one in front of
which the transfer fits.  That the result is clear of all intervals, also of those
that it has not looked at, rests on their order by starts, and this order is kept
by every reservation as long as no time is NaN.

* `le_earliestGap` — a gap is not sought in vain: it comes at or behind the given time;
* `clear_earliestGap` — a transfer in the gap is clear of every reservation;
* `sorted_reserve` — reserving keeps the order;
* `maxOverlap_le` — the largest overlap is bounded if that of every two is.
-/

namespace SharedLink

open Timescale

variable {τ : Type} [Timescale τ]

/-- An interval between numbers. -/
def Interval.IsNumeric (i : Interval τ) : Prop := IsNumber i.start ∧ IsNumber i.stop

instance Interval.decidableIsNumeric (i : Interval τ) : Decidable i.IsNumeric :=
  inferInstanceAs (Decidable (IsNumber i.start ∧ IsNumber i.stop))

theorem Interval.isNumeric_rat (i : Interval Rat) : i.IsNumeric := ⟨Rat.le_refl, Rat.le_refl⟩

namespace Timeline

/-- Reservations between numbers only. -/
def IsNumeric (t : Timeline τ) : Prop := ∀ i ∈ t.intervals, i.IsNumeric

instance decidableIsNumeric (t : Timeline τ) : Decidable t.IsNumeric :=
  inferInstanceAs (Decidable (∀ i ∈ t.intervals, i.IsNumeric))

theorem isNumeric_rat (t : Timeline Rat) : t.IsNumeric := fun i _ => i.isNumeric_rat

/-! ## the order of intervals -/

theorem before_eq_lex :
    (before : Interval τ → Interval τ → Bool) =
      lex Interval.start fun a b => decide (a.stop < b.stop) := rfl

/-- Among numbers, an interval does not come before another just if it starts at or
behind its start and, with equal starts, stops at or behind its stop. -/
theorem before_eq_false_iff [Ordered τ] {a b : Interval τ} (ha : a.IsNumeric) (hb : b.IsNumeric) :
    before b a = false ↔ a.start ≤ b.start ∧ (b.start ≤ a.start → a.stop ≤ b.stop) := by
  rw [before_eq_lex, lex_eq_false_iff ha.1 hb.1, decide_eq_false_iff_not]
  constructor
  · intro ⟨hstart, hstop⟩
    exact ⟨hstart, fun hback => le_of_not_lt hb.2 ha.2 (hstop hback)⟩
  · intro ⟨hstart, hstop⟩
    exact ⟨hstart, fun hback => not_lt_of_le (hstop hback)⟩

theorem strictWeakOn_before [Ordered τ] :
    StrictWeakOn before (Interval.IsNumeric : Interval τ → Prop) :=
  strictWeakOn_lex (strictWeakOn_lt Interval.stop)

/-- In the order of intervals the starts only grow. -/
theorem pairwise_start [Ordered τ] {is : List (Interval τ)} (hnum : ∀ i ∈ is, i.IsNumeric)
    (h : Sorted before is) : is.Pairwise fun a b => a.start ≤ b.start := by
  refine List.Pairwise.imp_of_mem (fun {a b} ha hb hab => ?_) h
  exact ((before_eq_false_iff (hnum a ha) (hnum b hb)).mp hab).1

/-! ## the search -/

theorem le_gapFrom [Ordered τ] (d : τ) {c : τ} (is : List (Interval τ)) (hc : IsNumber c) :
    c ≤ gapFrom d c is := by
  induction is generalizing c with
  | nil => exact hc
  | cons i rest ih =>
      unfold gapFrom
      split
      · exact hc
      · exact Ordered.le_trans (le_larger_left hc) (ih (isNumber_larger hc))

theorem isNumber_of_gapFrom [Ordered τ] {d c : τ} {is : List (Interval τ)}
    (h : IsNumber (gapFrom d c is)) : IsNumber c := by
  induction is generalizing c with
  | nil => exact h
  | cons i rest ih =>
      unfold gapFrom at h
      split at h
      · exact h
      · exact isNumber_of_larger (ih h)

/-- The candidate ends up behind every interval that it was pushed behind, and in
front of the others: they start no earlier than the one that it fits before. -/
theorem clear_gapFrom [Ordered τ] {d c : τ} {is : List (Interval τ)} (hc : IsNumber c)
    (hstop : ∀ i ∈ is, IsNumber i.stop) (hsorted : is.Pairwise fun a b => a.start ≤ b.start) :
    ∀ i ∈ is, i.stop ≤ gapFrom d c is ∨ gapFrom d c is + d ≤ i.start := by
  induction is generalizing c with
  | nil => intro i hi; cases hi
  | cons first rest ih =>
      obtain ⟨hfirst, hrest⟩ := List.pairwise_cons.mp hsorted
      obtain ⟨hstop, hstops⟩ := List.forall_mem_cons.mp hstop
      have hlarger : IsNumber (larger c first.stop) := isNumber_larger hc
      intro i hi
      unfold gapFrom
      split
      · next hfits =>
          right
          cases List.mem_cons.mp hi with
          | inl he => rw [he]; exact hfits
          | inr hi => exact Ordered.le_trans hfits (hfirst i hi)
      · cases List.mem_cons.mp hi with
        | inl he =>
            left
            rw [he]
            exact Ordered.le_trans (le_larger_right hc hstop) (le_gapFrom d rest hlarger)
        | inr hi => exact ih hlarger hstops hrest i hi

variable {t t' : Timeline τ} {start stop after d : τ}

/-- **A gap is never early**: it comes at or behind the time that it was sought from. -/
theorem le_earliestGap [Ordered τ] (h : IsNumber after) : after ≤ t.earliestGap after d :=
  le_gapFrom d t.intervals h

theorem isNumber_of_earliestGap [Ordered τ] (h : IsNumber (t.earliestGap after d)) :
    IsNumber after := isNumber_of_gapFrom h

/-- **A gap is free**: every reservation stops before it or starts behind what is put there. -/
theorem clear_earliestGap [Ordered τ] (hnum : t.IsNumeric) (hsorted : Sorted before t.intervals)
    (h : IsNumber (t.earliestGap after d)) :
    ∀ i ∈ t.intervals,
      i.stop ≤ t.earliestGap after d ∨ t.earliestGap after d + d ≤ i.start :=
  clear_gapFrom (isNumber_of_earliestGap h) (fun i hi => (hnum i hi).2)
    (pairwise_start hnum hsorted)

/-! ## reserving -/

theorem intervals_reserve (h : t.reserve start stop = .ok t') :
    t'.intervals = insertRight before ⟨start, stop⟩ t.intervals := by
  unfold reserve at h
  split at h
  · cases h
  · rw [← Except.ok.inj h]

/-- Reserving keeps the order of the intervals. -/
theorem sorted_reserve [Ordered τ] (hnum : t'.IsNumeric) (hsorted : Sorted before t.intervals)
    (h : t.reserve start stop = .ok t') : Sorted before t'.intervals := by
  have hperm := perm_reserve h
  have hmem (i : Interval τ) (hi : i ∈ ⟨start, stop⟩ :: t.intervals) : i.IsNumeric :=
    hnum i (hperm.mem_iff.mpr hi)
  rw [intervals_reserve h]
  refine sorted_insertRight strictWeakOn_before ?_ (fun i hi => ?_) hsorted
  · exact hmem _ List.mem_cons_self
  · exact hmem i (List.mem_cons_of_mem _ hi)

/-! ## overlaps -/

theorem overlapWith_le {bound best : τ} {is : List (Interval τ)} (hbest : best ≤ bound)
    (h : ∀ i ∈ is, smaller stop i.stop - i.start ≤ bound) : overlapWith stop best is ≤ bound := by
  induction is generalizing best with
  | nil => exact hbest
  | cons i rest ih =>
      obtain ⟨hi, hrest⟩ := List.forall_mem_cons.mp h
      unfold overlapWith
      split
      · exact hbest
      · refine ih ?_ hrest
        unfold larger
        split
        · exact hi
        · exact hbest

theorem overlapAmong_le {bound best : τ} {is : List (Interval τ)} (hbest : best ≤ bound)
    (h : is.Pairwise fun a b => smaller a.stop b.stop - b.start ≤ bound) :
    overlapAmong best is ≤ bound := by
  induction is generalizing best with
  | nil => exact hbest
  | cons i rest ih =>
      obtain ⟨hi, hrest⟩ := List.pairwise_cons.mp h
      exact ih (overlapWith_le hbest hi) hrest

/-- The largest overlap stays within a bound that holds of every two reservations. -/
theorem maxOverlap_le {bound : τ} (hbound : 0 ≤ bound)
    (h : t.intervals.Pairwise fun a b => smaller a.stop b.stop - b.start ≤ bound) :
    t.maxOverlap ≤ bound := overlapAmong_le hbound h

theorem le_overlapWith [Ordered τ] {best : τ} (is : List (Interval τ)) (hbest : IsNumber best) :
    best ≤ overlapWith stop best is := by
  induction is generalizing best with
  | nil => exact hbest
  | cons i rest ih =>
      unfold overlapWith
      split
      · exact hbest
      · exact Ordered.le_trans (le_larger_left hbest) (ih (isNumber_larger hbest))

theorem le_overlapAmong [Ordered τ] {best : τ} (is : List (Interval τ)) (hbest : IsNumber best) :
    best ≤ overlapAmong best is := by
  induction is generalizing best with
  | nil => exact hbest
  | cons i rest ih =>
      have hi : best ≤ overlapWith i.stop best rest := le_overlapWith rest hbest
      exact Ordered.le_trans hi (ih (Ordered.isNumber_right hi))

/-- No overlap is negative. -/
theorem zero_le_maxOverlap [Ordered τ] (t : Timeline τ) : 0 ≤ t.maxOverlap :=
  le_overlapAmong t.intervals Ordered.isNumber_zero

end Timeline

end SharedLink
