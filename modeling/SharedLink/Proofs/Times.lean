import Mathlib.Algebra.Order.Ring.Rat
import SharedLink.Sorting
import SharedLink.Timescale

/-!
# SharedLink.Proofs.Times

The order of times.

Doubles are in order but for NaN, which is not even at or below itself.  A time
is called a number here if it is at or below itself; a scan or a sort that meets
numbers only can rely on a total order (`Timescale.Ordered`), whether additions
round or not.

* `le_larger_left`, `le_larger_right` — the larger of two times bounds both;
* `le_largest` — so does the largest of a list;
* `strictWeakOn_lex` — numbers sort, and what sorts by something else among equals too.
-/

namespace SharedLink

namespace Timescale

/-- A time that is a number, and so can be compared. -/
def IsNumber {τ : Type} [Timescale τ] (t : τ) : Prop := t ≤ t

instance {τ : Type} [Timescale τ] (t : τ) : Decidable (IsNumber t) :=
  inferInstanceAs (Decidable (t ≤ t))

/-- Times of which the numbers are in a total order, among them zero and
whatever is one more than a number, and only numbers have sums that are numbers. -/
class Ordered (τ : Type) [Timescale τ] : Prop where
  /-- only numbers are below anything -/
  isNumber_left {a b : τ} : a ≤ b → IsNumber a
  /-- only numbers are above anything -/
  isNumber_right {a b : τ} : a ≤ b → IsNumber b
  /-- the weak order is transitive -/
  le_trans {a b c : τ} : a ≤ b → b ≤ c → a ≤ c
  /-- numbers can be compared -/
  le_total {a b : τ} : IsNumber a → IsNumber b → a ≤ b ∨ b ≤ a
  /-- the strict order follows from the weak one -/
  lt_iff {a b : τ} : a < b ↔ a ≤ b ∧ ¬b ≤ a
  /-- zero is a number -/
  isNumber_zero : IsNumber (0 : τ)
  /-- adding one to a number gives a number -/
  isNumber_add_one {a : τ} : IsNumber a → IsNumber (a + 1)
  /-- nothing added to NaN gives a number -/
  isNumber_of_add {a b : τ} : IsNumber (a + b) → IsNumber a

/-- Exact times are all numbers. -/
instance : Ordered Rat where
  isNumber_left _ := Rat.le_refl
  isNumber_right _ := Rat.le_refl
  le_trans := Rat.le_trans
  le_total _ _ := Rat.le_total
  lt_iff := Rat.lt_iff_le_not_ge _ _
  isNumber_zero := Rat.le_refl
  isNumber_add_one _ := Rat.le_refl
  isNumber_of_add _ := Rat.le_refl

variable {τ : Type} [Timescale τ] {a b : τ}

/-- Two times are the same if each is at or below the other. -/
theorem same_iff : same a b = true ↔ a ≤ b ∧ b ≤ a := by
  simp only [same, Bool.and_eq_true, decide_eq_true_eq]

variable [Ordered τ]

open Ordered

/-- What is strictly below is below. -/
theorem le_of_lt (h : a < b) : a ≤ b := (lt_iff.mp h).1

/-- What is not strictly below a number is at or above it. -/
theorem le_of_not_lt (ha : IsNumber a) (hb : IsNumber b) (h : ¬a < b) : b ≤ a := by
  obtain hab | hba := le_total ha hb
  · by_contra hba
    exact h (lt_iff.mpr ⟨hab, hba⟩)
  · exact hba

/-- What is at or above is not strictly below. -/
theorem not_lt_of_le (h : b ≤ a) : ¬a < b := fun hab => (lt_iff.mp hab).2 h

/-! ## the larger of two times -/

/-- The larger of two times is no number if the first is none. -/
theorem isNumber_of_larger (h : IsNumber (larger a b)) : IsNumber a := by
  unfold larger at h
  split at h
  · next hab => exact isNumber_left (le_of_lt hab)
  · exact h

/-- The larger of a number and anything is a number. -/
theorem isNumber_larger (h : IsNumber a) : IsNumber (larger a b) := by
  unfold larger
  split
  · next hab => exact isNumber_right (le_of_lt hab)
  · exact h

/-- The larger of two times is at or above the first. -/
theorem le_larger_left (h : IsNumber a) : a ≤ larger a b := by
  unfold larger
  split
  · next hab => exact le_of_lt hab
  · exact h

/-- The larger of two times is at or above the second. -/
theorem le_larger_right (ha : IsNumber a) (hb : IsNumber b) : b ≤ larger a b := by
  unfold larger
  split
  · exact hb
  · next hab => exact le_of_not_lt ha hb hab

/-- The smaller of two times is at or below the first. -/
theorem smaller_le_left (h : IsNumber a) : smaller a b ≤ a := by
  unfold smaller
  split
  · next hba => exact le_of_lt hba
  · exact h

/-! ## the largest of a list -/

/-- Starting from a number, the running maximum stays at or above where it started. -/
theorem le_foldl_larger (ts : List τ) (h : IsNumber a) : a ≤ ts.foldl larger a := by
  induction ts generalizing a with
  | nil => exact h
  | cons t ts ih =>
      rw [List.foldl_cons]
      exact Ordered.le_trans (le_larger_left h) (ih (isNumber_larger h))

/-- The running maximum is at or above every number that it has met. -/
theorem mem_le_foldl_larger {ts : List τ} {t : τ} (ha : IsNumber a) (hnum : IsNumber t)
    (ht : t ∈ ts) : t ≤ ts.foldl larger a := by
  induction ts generalizing a with
  | nil => cases ht
  | cons u ts ih =>
      rw [List.foldl_cons]
      obtain rfl | ht := List.mem_cons.mp ht
      · exact Ordered.le_trans (le_larger_right ha hnum) (le_foldl_larger ts (isNumber_larger ha))
      · exact ih (isNumber_larger ha) ht

/-- It stays where it started just if it meets nothing above. -/
theorem foldl_larger_eq_self_iff {ts : List τ} (ha : IsNumber a) :
    ts.foldl larger a = a ↔ ∀ t ∈ ts, ¬a < t := by
  constructor
  · intro h t ht hlt
    have hle : t ≤ ts.foldl larger a :=
      mem_le_foldl_larger ha (isNumber_right (le_of_lt hlt)) ht
    rw [h] at hle
    exact not_lt_of_le hle hlt
  · intro h
    induction ts with
    | nil => rfl
    | cons t ts ih =>
        obtain ⟨ht, hts⟩ := List.forall_mem_cons.mp h
        have hsame : larger a t = a := if_neg ht
        rw [List.foldl_cons, hsame]
        exact ih hts

/-- The largest of some numbers is at or above each of them. -/
theorem le_largest {ts : List τ} {t : τ} (default : τ) (hts : ∀ u ∈ ts, IsNumber u) (ht : t ∈ ts) :
    t ≤ largest default ts := by
  cases ts with
  | nil => cases ht
  | cons u ts =>
      have hu : IsNumber u := hts u List.mem_cons_self
      obtain rfl | ht := List.mem_cons.mp ht
      · exact le_foldl_larger ts hu
      · exact mem_le_foldl_larger hu (hts t (List.mem_cons_of_mem u ht)) ht

/-! ## sorting by times -/

section

variable {α : Type} {f : α → τ} {r : α → α → Bool} {x y : α}

/-- By a time, and by something else where the times are the same. -/
def lex (f : α → τ) (r : α → α → Bool) (x y : α) : Bool :=
  if same (f x) (f y) then r x y else decide (f x < f y)

theorem lex_iff : lex f r x y = true ↔
    f x < f y ∨ (f x ≤ f y ∧ f y ≤ f x ∧ r x y = true) := by
  unfold lex
  by_cases hs : same (f x) (f y) = true
  · obtain ⟨hxy, hyx⟩ := same_iff.mp hs
    rw [if_pos hs]
    constructor
    · intro h
      exact .inr ⟨hxy, hyx, h⟩
    · intro h
      cases h with
      | inl h => exact absurd h (not_lt_of_le hyx)
      | inr h => exact h.2.2
  · rw [if_neg hs, decide_eq_true_eq]
    constructor
    · exact .inl
    · intro h
      cases h with
      | inl h => exact h
      | inr h => exact absurd (same_iff.mpr ⟨h.1, h.2.1⟩) hs

theorem lex_eq_false_iff (hx : IsNumber (f x)) (hy : IsNumber (f y)) :
    lex f r y x = false ↔ f x ≤ f y ∧ (f y ≤ f x → r y x = false) := by
  rw [Bool.eq_false_iff, ne_eq, lex_iff]
  constructor
  · intro h
    have hle : f x ≤ f y := le_of_not_lt hy hx fun hlt => h (.inl hlt)
    refine ⟨hle, fun hback => ?_⟩
    exact Bool.eq_false_iff.mpr fun hr => h (.inr ⟨hback, hle, hr⟩)
  · intro ⟨hle, hr⟩ h
    cases h with
    | inl hlt => exact not_lt_of_le hle hlt
    | inr h =>
        have := hr h.1
        rw [h.2.2] at this
        cases this

/-- Numbers are in a strict weak order. -/
theorem strictWeakOn_lt (f : α → τ) :
    StrictWeakOn (fun x y => decide (f x < f y)) (fun x => IsNumber (f x)) where
  asymm _ _ h := decide_eq_false (not_lt_of_le (le_of_lt (of_decide_eq_true h)))
  trans hx hy hz hxy hyz := by
    have hxy := le_of_not_lt hy hx (of_decide_eq_false hxy)
    have hyz := le_of_not_lt hz hy (of_decide_eq_false hyz)
    exact decide_eq_false (not_lt_of_le (Ordered.le_trans hxy hyz))

/-- **Sorting by times first**: a strict weak order can be refined from a coarser one by times. -/
theorem strictWeakOn_lex {p : α → Prop} (order : StrictWeakOn r p) :
    StrictWeakOn (lex f r) (fun x => IsNumber (f x) ∧ p x) where
  asymm {x y} hx hy h := by
    rw [lex_eq_false_iff hx.1 hy.1]
    cases lex_iff.mp h with
    | inl hlt => exact ⟨le_of_lt hlt, fun hback => absurd hlt (not_lt_of_le hback)⟩
    | inr h => exact ⟨h.1, fun _ => order.asymm hx.2 hy.2 h.2.2⟩
  trans {x y z} hx hy hz hxy hyz := by
    obtain ⟨hxy, hxy'⟩ := (lex_eq_false_iff hx.1 hy.1).mp hxy
    obtain ⟨hyz, hyz'⟩ := (lex_eq_false_iff hy.1 hz.1).mp hyz
    rw [lex_eq_false_iff hx.1 hz.1]
    refine ⟨Ordered.le_trans hxy hyz, fun hback => ?_⟩
    have hyx := hxy' (Ordered.le_trans hyz hback)
    have hzy := hyz' (Ordered.le_trans hback hxy)
    exact order.trans hx.2 hy.2 hz.2 hyx hzy

end

end Timescale

end SharedLink
