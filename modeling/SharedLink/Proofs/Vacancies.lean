import SharedLink.Proofs.Gaps
import SharedLink.Proofs.Outcomes
import SharedLink.Proofs.Signs

/-!
# SharedLink.Proofs.Vacancies

Which gap a search finds.

The search stops at the first interval in front of which the transfer fits and never
looks behind it, and intervals that overlap can stop in any order.  It still finds
the earliest time of all at which the transfer is clear of every interval: each time
the candidate is pushed to the stop of an interval, no time in front of that stop was
clear of it.  Nothing but the monotony of sums is used, so this holds of rounded sums too.

* `Timescale.IsFinite` — a time whose sums with numbers are numbers;
* `Timeline.IsEarliest` — the earliest vacancy from a time on;
* `gapFrom_le` — no vacancy is passed over;
* `IsEarliest.mono` — a later start, a longer transfer and further reservations only delay it;
* `searches_of_reserveAll` — the search is exact on whatever reservations were made.
-/

namespace SharedLink

/-! ## finite times -/

/-- What is finite stays so with the other sign. -/
theorem Binary64.isFinite_neg {u : Float.Model.UnpackedFloat} (h : u.isFinite = true) :
    u.neg.isFinite = true := by
  cases u <;> exact h

/-- The parts of a finite double are finite. -/
theorem Binary64.isFinite_unpack {x : Float} (h : Binary64.isFinite x = true) :
    x.toModel.unpack.isFinite = true := by
  have hx := unpack_eq_unpacked x
  unfold Binary64.isFinite at h
  cases hread : decode x with
  | nan => rw [hread] at h; cases h
  | infinite negative => rw [hread] at h; cases h
  | finite negative m e =>
      rw [hx, hread]
      by_cases hm : m = 0
      · rw [unpacked_zero _ _ hm]
        rfl
      · rw [unpacked_finite _ _ hm]
        rfl

namespace Timescale

/-- A time that can be added to every number: of doubles the finite ones, of exact
times all. -/
def IsFinite {τ : Type} [Timescale τ] (t : τ) : Prop := ∀ u : τ, IsNumber u → IsNumber (u + t)

theorem isFinite_rat (t : Rat) : IsFinite t := fun _ _ => Rat.le_refl

/-- Finite doubles can be added to every number, and no others can: an infinity and the other one
have no sum. -/
theorem isFinite_float_iff {x : Float} : IsFinite x ↔ Binary64.isFinite x = true := by
  have hx := Binary64.unpack_eq_unpacked x
  unfold Binary64.isFinite
  cases hread : Binary64.decode x with
  | nan =>
      rw [hread] at hx
      refine iff_of_false (fun h => ?_) Bool.false_ne_true
      have hnum := isNumber_right_of_add (h 0 Ordered.isNumber_zero)
      rw [Binary64.isNumber_iff, hx] at hnum
      cases hnum
  | infinite negative =>
      rw [hread] at hx
      refine iff_of_false (fun h => ?_) Bool.false_ne_true
      have hnum := h (Binary64.infinity (!negative)) (by cases negative <;> decide +kernel)
      rw [Binary64.isNumber_iff, Binary64.unpack_add, hx] at hnum
      cases negative <;> exact absurd hnum (by decide +kernel)
  | finite negative m e =>
      refine iff_of_true (fun u hu => ?_) rfl
      have hfinite : Binary64.isFinite x = true := by
        unfold Binary64.isFinite
        rw [hread]
      rw [Binary64.isNumber_iff] at hu ⊢
      exact Binary64.isNaN_unpack_pack _
        (Binary64.isNaN_add hu (Binary64.isFinite_unpack hfinite))

end Timescale

open Timescale

namespace Timeline

variable {τ : Type} [Timescale τ]

/-- The link is free for a transfer from a time on: every reservation stops before
it or starts behind it. -/
def Vacant (t : Timeline τ) (c d : τ) : Prop :=
  ∀ i ∈ t.intervals, i.stop ≤ c ∨ c + d ≤ i.start

/-- The earliest of all times from `after` on at which the link is free for `d`. -/
structure IsEarliest (t : Timeline τ) (after d c : τ) : Prop where
  after_le : after ≤ c
  vacant : t.Vacant c d
  least : ∀ other, after ≤ other → t.Vacant other d → c ≤ other

/-- Reserve the link for all intervals of a list in turn. -/
def reserveAll (t : Timeline τ) (is : List (Interval τ)) : Except Fault (Timeline τ) :=
  is.foldlM (fun t i => t.reserve i.start i.stop) t

variable [Arithmetic τ] {t t' : Timeline τ} {after after' d d' c c' : τ}

/-! ## the search -/

/-- **No vacancy is passed over**: where a transfer is clear of all intervals, the
candidate does not end up behind it, since what fits later would fit from the candidate on. -/
theorem gapFrom_le {is : List (Interval τ)} (hd : IsFinite d) (hle : c ≤ c')
    (hclear : ∀ i ∈ is, i.stop ≤ c' ∨ c' + d ≤ i.start) : gapFrom d c is ≤ c' := by
  induction is generalizing c with
  | nil => exact hle
  | cons i rest ih =>
      obtain ⟨hi, hrest⟩ := List.forall_mem_cons.mp hclear
      unfold gapFrom
      split
      · exact hle
      next hshort =>
        have hstop : i.stop ≤ c' := by
          refine hi.resolve_right fun hfits => hshort ?_
          have hc : IsNumber (c + d) := hd c (Ordered.isNumber_left hle)
          exact Ordered.le_trans
            (Arithmetic.add_le_add_right hle hc (Ordered.isNumber_left hfits)) hfits
        refine ih ?_ hrest
        unfold larger
        split
        · exact hstop
        · exact hle

/-- **Exactness of the search**: it finds the earliest vacancy. -/
theorem isEarliest_earliestGap (hnum : t.IsNumeric) (hsorted : Sorted before t.intervals)
    (hafter : IsNumber after) (hd : IsFinite d) :
    t.IsEarliest after d (t.earliestGap after d) where
  after_le := le_earliestGap hafter
  vacant := clear_earliestGap hnum hsorted (Ordered.isNumber_right (le_earliestGap hafter))
  least _ hle hvacant := gapFrom_le hd hle hvacant

/-- **Monotony of the search**: a later start, a longer transfer and further reservations
only delay the earliest vacancy. -/
theorem IsEarliest.mono (h : t.IsEarliest after d c) (h' : t'.IsEarliest after' d' c')
    (hafter : after ≤ after') (hd : d ≤ d') (hfin : IsFinite d)
    (hsub : t.intervals ⊆ t'.intervals) : c ≤ c' := by
  refine h.least c' (Ordered.le_trans hafter h'.after_le) fun i hi => ?_
  refine (h'.vacant i (hsub hi)).imp_right fun hfits => ?_
  have hshort : IsNumber (c' + d) := hfin c' (Ordered.isNumber_right h'.after_le)
  exact Ordered.le_trans (add_le_add_left hd hshort (Ordered.isNumber_left hfits)) hfits

/-! ## the reservations -/

omit [Arithmetic τ] in
/-- Reservations that are made in turn add their intervals and nothing else. -/
theorem perm_reserveAll {is : List (Interval τ)} (h : t.reserveAll is = .ok t') :
    t'.intervals.Perm (t.intervals ++ is) := by
  induction is generalizing t with
  | nil =>
      rw [List.append_nil, ← pure_eq_ok_iff.mp h]
  | cons i rest ih =>
      obtain ⟨mid, hmid, hrest⟩ := bind_eq_ok_iff.mp h
      calc
        List.Perm t'.intervals (mid.intervals ++ rest) := ih hrest
        List.Perm _ ((i :: t.intervals) ++ rest) := (perm_reserve hmid).append_right rest
        List.Perm _ (t.intervals ++ i :: rest) := List.perm_middle.symm

/-- They keep the order of the intervals. -/
theorem sorted_reserveAll {is : List (Interval τ)} (hnum : t'.IsNumeric)
    (hsorted : Sorted before t.intervals) (h : t.reserveAll is = .ok t') :
    Sorted before t'.intervals := by
  induction is generalizing t with
  | nil => rwa [← pure_eq_ok_iff.mp h]
  | cons i rest ih =>
      obtain ⟨mid, hmid, hrest⟩ := bind_eq_ok_iff.mp h
      have hbefore : mid.IsNumeric := fun i hi =>
        hnum i ((perm_reserveAll hrest).mem_iff.mpr (List.mem_append_left _ hi))
      exact ih (sorted_reserve hbefore hsorted hmid) hrest

/-- A timeline holds some intervals, in order, and every search in it finds the earliest
vacancy; in a timeline that holds these and further ones no search that starts later or is
for longer comes out earlier. -/
structure Searches (t : Timeline τ) (given : List (Interval τ)) : Prop where
  holds : t.intervals.Perm given
  ordered : t.intervals.Pairwise fun a b =>
    a.start ≤ b.start ∧ (b.start ≤ a.start → a.stop ≤ b.stop)
  earliest : ∀ after d, IsNumber after → IsFinite d →
    t.IsEarliest after d (t.earliestGap after d)
  monotone : ∀ front further t', (∀ i ∈ front ++ further, i.IsNumeric) →
    (ofList front).reserveAll further = .ok t' → given ⊆ front ++ further →
    ∀ after after' d d', after ≤ after' → d ≤ d' → IsFinite d → IsFinite d' →
      t.earliestGap after d ≤ t'.earliestGap after' d'

omit [Arithmetic τ] in
theorem perm_of_reserveAll {front further : List (Interval τ)}
    (h : (ofList front).reserveAll further = .ok t) : t.intervals.Perm (front ++ further) :=
  (perm_reserveAll h).trans ((perm_sortBy before front).append_right further)

theorem sorted_of_reserveAll {front further : List (Interval τ)}
    (hnum : ∀ i ∈ front ++ further, i.IsNumeric)
    (h : (ofList front).reserveAll further = .ok t) :
    t.IsNumeric ∧ Sorted before t.intervals := by
  have hnumeric : t.IsNumeric := fun i hi => hnum i ((perm_of_reserveAll h).mem_iff.mp hi)
  refine ⟨hnumeric, sorted_reserveAll hnumeric ?_ h⟩
  exact sorted_sortBy strictWeakOn_before fun i hi => hnum i (List.mem_append_left _ hi)

/-- **Searches are exact**: on a timeline that was made from intervals without NaN, in any order,
and further reservations of such intervals, in any order, a search finds the earliest time at
which the link is free for the transfer, and searches are monotone.  The intervals may overlap,
touch, repeat and be empty, and the transfer may take any finite time. -/
theorem searches_of_reserveAll {front further : List (Interval τ)} {t : Timeline τ}
    (hnum : ∀ i ∈ front ++ further, i.IsNumeric)
    (h : (ofList front).reserveAll further = .ok t) : t.Searches (front ++ further) := by
  obtain ⟨hnumeric, hsorted⟩ := sorted_of_reserveAll hnum h
  have hperm : t.intervals.Perm (front ++ further) := perm_of_reserveAll h
  refine ⟨hperm, ?_, fun after d hafter hd => ?_, ?_⟩
  · exact hsorted.imp_of_mem fun ha hb hab =>
      (before_eq_false_iff (hnumeric _ ha) (hnumeric _ hb)).mp hab
  · exact isEarliest_earliestGap hnumeric hsorted hafter hd
  · intro front' further' t' hnum' h' hsub after after' d d' hafter hd hfin hfin'
    obtain ⟨hnumeric', hsorted'⟩ := sorted_of_reserveAll hnum' h'
    have hone := isEarliest_earliestGap hnumeric hsorted (Ordered.isNumber_left hafter) hfin
    have hother := isEarliest_earliestGap hnumeric' hsorted' (Ordered.isNumber_right hafter) hfin'
    refine hone.mono hother hafter hd hfin fun i hi => ?_
    exact (perm_of_reserveAll h').mem_iff.mpr (hsub (hperm.mem_iff.mp hi))

/-- Two intervals that overlap, one within the other, and an empty one that is reserved
twice: nothing fits before the longest one stops, where the scan has passed a stop that lies
further in front. -/
theorem searches_overlapping :
    (∀ i ∈ ([⟨2, 9⟩, ⟨3, 4⟩] : List (Interval Float)) ++ [⟨1, 1⟩, ⟨1, 1⟩], i.IsNumeric) ∧
      (ofList [⟨2, 9⟩, ⟨3, 4⟩]).reserveAll [⟨1, 1⟩, ⟨1, 1⟩] =
        .ok (⟨[⟨1, 1⟩, ⟨1, 1⟩, ⟨2, 9⟩, ⟨3, 4⟩]⟩ : Timeline Float) ∧
      IsFinite (1.5 : Float) ∧
      IsEarliest (⟨[⟨1, 1⟩, ⟨1, 1⟩, ⟨2, 9⟩, ⟨3, 4⟩]⟩ : Timeline Float) 0 1.5 9 := by
  have hnum : ∀ i ∈ ([⟨2, 9⟩, ⟨3, 4⟩] : List (Interval Float)) ++ [⟨1, 1⟩, ⟨1, 1⟩],
      i.IsNumeric := by decide +kernel
  have h : (ofList [⟨2, 9⟩, ⟨3, 4⟩]).reserveAll [⟨1, 1⟩, ⟨1, 1⟩] =
      .ok (⟨[⟨1, 1⟩, ⟨1, 1⟩, ⟨2, 9⟩, ⟨3, 4⟩]⟩ : Timeline Float) := by decide +kernel
  have hfin : IsFinite (1.5 : Float) := isFinite_float_iff.mpr (by decide +kernel)
  have hgap : earliestGap (⟨[⟨1, 1⟩, ⟨1, 1⟩, ⟨2, 9⟩, ⟨3, 4⟩]⟩ : Timeline Float) 0 1.5 = 9 := by
    decide +kernel
  refine ⟨hnum, h, hfin, ?_⟩
  rw [← hgap]
  exact (searches_of_reserveAll hnum h).earliest 0 1.5 Ordered.isNumber_zero hfin

end Timeline

end SharedLink
