import SharedLink.Proofs.Vacancies

/-!
# SharedLink.Proofs.Overlaps

The largest overlap is that of all pairs.

The search goes through the intervals behind each interval and stops at the first one
that starts at or behind the end of that interval.  As the starts only grow, none of
those that it leaves out overlaps the interval either, be they nested, equal, empty or
inverted.  All that is asked of the arithmetic is that a difference is above zero just
if it should be; so this holds of doubles as well, which never round such a difference
to zero.

* `Timescale.Differences` — times with such differences;
* `Timeline.overlaps` — the overlaps of all pairs;
* `overlapWith_eq` — what the search leaves out changes nothing;
* `greatestOverlap_of_reserveAll` — the largest overlap of any reservations.
-/

namespace SharedLink

namespace Timescale

/-- Times with differences that are above zero just if they should be. -/
class Differences (τ : Type) [Timescale τ] : Prop extends Arithmetic τ where
  /-- what is taken away from a larger time leaves something -/
  sub_pos_iff {a b : τ} : 0 < a - b ↔ b < a

instance : Differences Float where
  sub_pos_iff := Binary64.sub_pos_iff

instance : Differences Rat where
  sub_pos_iff := sub_pos

/-- What is not above zero is not above what is at or above zero. -/
theorem not_lt_of_not_pos {τ : Type} [Timescale τ] [Ordered τ] {a b : τ} (ha : 0 ≤ a)
    (hb : ¬0 < b) : ¬a < b := by
  intro h
  obtain ⟨hle, hnot⟩ := Ordered.lt_iff.mp h
  exact hb (Ordered.lt_iff.mpr ⟨Ordered.le_trans ha hle, fun hback =>
    hnot (Ordered.le_trans hback ha)⟩)

end Timescale

open Timescale

variable {τ : Type} [Timescale τ]

namespace Interval

/-- For how long two intervals overlap; not above zero if they do not. -/
def overlap (a b : Interval τ) : τ := smaller a.stop b.stop - larger b.start a.start

/-- If they are in order, the overlap starts with the second one. -/
theorem overlap_of_le [Ordered τ] {a b : Interval τ} (h : a.start ≤ b.start) :
    a.overlap b = smaller a.stop b.stop - b.start := by
  have hstart : larger b.start a.start = b.start := if_neg (not_lt_of_le h)
  rw [overlap, hstart]

/-- An interval does not overlap one that starts at or behind its end. -/
theorem not_pos_overlap [Differences τ] {a b : Interval τ} (hstart : a.start ≤ b.start)
    (hstop : a.stop ≤ b.start) : ¬0 < a.overlap b := by
  rw [overlap_of_le hstart, Differences.sub_pos_iff]
  exact not_lt_of_le (Ordered.le_trans (smaller_le_left (Ordered.isNumber_left hstop)) hstop)

end Interval

namespace Timeline

/-- The overlaps of any two intervals of a list. -/
def overlaps : List (Interval τ) → List τ
  | [] => []
  | i :: rest => rest.map i.overlap ++ overlaps rest

theorem mem_overlaps_iff {x : τ} {is : List (Interval τ)} :
    x ∈ overlaps is ↔ ∃ a b, [a, b].Sublist is ∧ a.overlap b = x := by
  induction is with
  | nil => simp [overlaps]
  | cons i rest ih =>
      rw [overlaps, List.mem_append, ih, List.mem_map]
      constructor
      · intro h
        cases h with
        | inl h =>
            obtain ⟨j, hj, hx⟩ := h
            exact ⟨i, j, (List.singleton_sublist.mpr hj).cons_cons i, hx⟩
        | inr h =>
            obtain ⟨a, b, hab, hx⟩ := h
            exact ⟨a, b, hab.cons i, hx⟩
      · intro ⟨a, b, hab, hx⟩
        cases hab with
        | cons _ hab => exact .inr ⟨a, b, hab, hx⟩
        | cons_cons _ hb => exact .inl ⟨b, List.singleton_sublist.mp hb, hx⟩

variable [Differences τ]

/-! ## the search -/

/-- **What is left out**: the search among the intervals behind one finds the largest of all
of their overlaps with it, since none starts before the one that it stops at. -/
theorem overlapWith_eq {i : Interval τ} {best : τ} {is : List (Interval τ)} (hbest : 0 ≤ best)
    (hstart : ∀ j ∈ is, i.start ≤ j.start) (hsorted : is.Pairwise fun a b => a.start ≤ b.start) :
    overlapWith i.stop best is = (is.map i.overlap).foldl larger best := by
  induction is generalizing best with
  | nil => rfl
  | cons j rest ih =>
      have hnumber : IsNumber best := Ordered.isNumber_right hbest
      obtain ⟨hj, hrest⟩ := List.forall_mem_cons.mp hstart
      obtain ⟨hbehind, hsorted⟩ := List.pairwise_cons.mp hsorted
      unfold overlapWith
      split
      · next hstop =>
          symm
          rw [foldl_larger_eq_self_iff hnumber]
          intro x hx
          obtain ⟨k, hk, rfl⟩ := List.mem_map.mp hx
          refine not_lt_of_not_pos hbest (Interval.not_pos_overlap (hstart k hk) ?_)
          cases List.mem_cons.mp hk with
          | inl heq => exact heq ▸ hstop
          | inr hk => exact Ordered.le_trans hstop (hbehind k hk)
      · rw [List.map_cons, List.foldl_cons, Interval.overlap_of_le hj]
        exact ih (Ordered.le_trans hbest (le_larger_left hnumber)) hrest hsorted

theorem overlapAmong_eq {best : τ} {is : List (Interval τ)} (hbest : 0 ≤ best)
    (hsorted : is.Pairwise fun a b => a.start ≤ b.start) :
    overlapAmong best is = (overlaps is).foldl larger best := by
  induction is generalizing best with
  | nil => rfl
  | cons i rest ih =>
      obtain ⟨hstart, hsorted⟩ := List.pairwise_cons.mp hsorted
      rw [overlapAmong, overlaps, List.foldl_append, ← overlapWith_eq hbest hstart hsorted]
      have hnumber : IsNumber best := Ordered.isNumber_right hbest
      exact ih (Ordered.le_trans hbest (le_overlapWith rest hnumber)) hsorted

/-- **The search is exhaustive**: it finds the largest overlap of all pairs. -/
theorem maxOverlap_eq {t : Timeline τ} (hnum : t.IsNumeric)
    (hsorted : Sorted before t.intervals) :
    t.maxOverlap = (overlaps t.intervals).foldl larger 0 :=
  overlapAmong_eq Ordered.isNumber_zero (pairwise_start hnum hsorted)

/-! ## reservations -/

/-- A time is the largest of zero and the overlaps of any two reservations.  An overlap is NaN only
where the earlier stop and the later start are the same infinity, and does not count then. -/
structure GreatestOverlap (t : Timeline τ) (m : τ) : Prop where
  nonneg : 0 ≤ m
  bounds : ∀ a b, [a, b].Sublist t.intervals → IsNumber (a.overlap b) → a.overlap b ≤ m
  attained : m = 0 ∨ ∃ a b, [a, b].Sublist t.intervals ∧ a.overlap b = m

theorem greatestOverlap_foldl (t : Timeline τ) :
    t.GreatestOverlap ((overlaps t.intervals).foldl larger 0) where
  nonneg := le_foldl_larger _ Ordered.isNumber_zero
  bounds a b hab hnum :=
    mem_le_foldl_larger Ordered.isNumber_zero hnum (mem_overlaps_iff.mpr ⟨a, b, hab, rfl⟩)
  attained := by
    cases List.mem_cons.mp (foldl_larger_mem (overlaps t.intervals) 0) with
    | inl hzero => exact .inl hzero
    | inr hmem => exact .inr (mem_overlaps_iff.mp hmem)

/-- **The largest overlap**: whatever intervals without NaN a timeline was made from, and whatever
further ones were reserved, the search finds the largest of zero and the overlaps of all pairs; it
finds zero just if of no two reservations the earlier stop is behind the later start.  The
intervals may be nested, equal or empty, and those that it was made from may stop before they
start. -/
theorem greatestOverlap_of_reserveAll {front further : List (Interval τ)} {t : Timeline τ}
    (hnum : ∀ i ∈ front ++ further, i.IsNumeric)
    (h : (ofList front).reserveAll further = .ok t) :
    t.maxOverlap = (overlaps t.intervals).foldl larger 0 ∧ t.GreatestOverlap t.maxOverlap ∧
      (t.maxOverlap = 0 ↔ ∀ a b, [a, b].Sublist t.intervals →
        smaller a.stop b.stop ≤ larger b.start a.start) := by
  obtain ⟨hnumeric, hsorted⟩ := sorted_of_reserveAll hnum h
  rw [maxOverlap_eq hnumeric hsorted]
  refine ⟨rfl, t.greatestOverlap_foldl, ?_⟩
  rw [foldl_larger_eq_self_iff Ordered.isNumber_zero]
  constructor
  · intro hnone a b hab
    have hpos := hnone _ (mem_overlaps_iff.mpr ⟨a, b, hab, rfl⟩)
    rw [Interval.overlap, Differences.sub_pos_iff] at hpos
    have ha := hnumeric a (hab.subset List.mem_cons_self)
    have hb := hnumeric b (hab.subset (List.mem_cons_of_mem a List.mem_cons_self))
    exact le_of_not_lt (isNumber_larger hb.1) (Ordered.isNumber_left (smaller_le_left ha.2)) hpos
  · intro hapart x hx
    obtain ⟨a, b, hab, rfl⟩ := mem_overlaps_iff.mp hx
    rw [Interval.overlap, Differences.sub_pos_iff]
    exact not_lt_of_le (hapart a b hab)

/-- Nested, equal, empty and inverted intervals: the first contains the others, and its overlap
with two equal ones is the largest. -/
theorem greatestOverlap_nested :
    (∀ i ∈ ([⟨0, 10⟩, ⟨2, 1⟩, ⟨3, 5⟩] : List (Interval Float)) ++ [⟨3, 5⟩, ⟨4, 4⟩], i.IsNumeric) ∧
      (ofList [⟨0, 10⟩, ⟨2, 1⟩, ⟨3, 5⟩]).reserveAll [⟨3, 5⟩, ⟨4, 4⟩] =
        .ok (⟨[⟨0, 10⟩, ⟨2, 1⟩, ⟨3, 5⟩, ⟨3, 5⟩, ⟨4, 4⟩]⟩ : Timeline Float) ∧
      GreatestOverlap (⟨[⟨0, 10⟩, ⟨2, 1⟩, ⟨3, 5⟩, ⟨3, 5⟩, ⟨4, 4⟩]⟩ : Timeline Float) 2 := by
  have hnum : ∀ i ∈ ([⟨0, 10⟩, ⟨2, 1⟩, ⟨3, 5⟩] : List (Interval Float)) ++ [⟨3, 5⟩, ⟨4, 4⟩],
      i.IsNumeric := by decide +kernel
  have h : (ofList [⟨0, 10⟩, ⟨2, 1⟩, ⟨3, 5⟩]).reserveAll [⟨3, 5⟩, ⟨4, 4⟩] =
      .ok (⟨[⟨0, 10⟩, ⟨2, 1⟩, ⟨3, 5⟩, ⟨3, 5⟩, ⟨4, 4⟩]⟩ : Timeline Float) := by decide +kernel
  have htwo : maxOverlap (⟨[⟨0, 10⟩, ⟨2, 1⟩, ⟨3, 5⟩, ⟨3, 5⟩, ⟨4, 4⟩]⟩ : Timeline Float) = 2 := by
    decide +kernel
  obtain ⟨-, hgreatest, -⟩ := greatestOverlap_of_reserveAll hnum h
  rw [htwo] at hgreatest
  exact ⟨hnum, h, hgreatest⟩

end Timeline

end SharedLink
