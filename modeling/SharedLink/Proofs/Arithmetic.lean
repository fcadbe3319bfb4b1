import SharedLink.Proofs.Times

/-!
# SharedLink.Proofs.Arithmetic

What planning may rely on when it adds, takes away, multiplies and divides.

Doubles round, have infinities, NaN and two zeros, and yet keep some laws of exact
times: sums of numbers are in the order of their terms, and signs come out as they
should.  `Timescale.Arithmetic` lists these laws.  A NaN is never below zero, so
"not below zero" is what the signs of all times can be told by.

* `le_add` — adding what is not negative does not lead below;
* `add_nonneg` — a sum of what is not negative is not negative;
* `largest_eq_of_perm` — the largest of a list does not depend on its order, unless
  NaN or a negative zero is in it.
-/

namespace SharedLink

namespace Timescale

/-- Ordered times with the laws that hold of sums, differences, products and
quotients however they round, and with conversions that keep signs. -/
class Arithmetic (τ : Type) [Timescale τ] : Prop extends Ordered τ where
  /-- terms can be exchanged -/
  add_comm (a b : τ) : a + b = b + a
  /-- sums that are numbers are in the order of their terms -/
  add_le_add_right {a b c : τ} : a ≤ b → IsNumber (a + c) → IsNumber (b + c) → a + c ≤ b + c
  /-- taking away what is not negative does not lead above -/
  sub_le {a b : τ} : ¬b < 0 → IsNumber (a - b) → a - b ≤ a
  /-- adding to zero does not lead below -/
  le_zero_add {a : τ} : IsNumber a → a ≤ 0 + a
  /-- times that cannot be told apart are the same once zero is added to them -/
  zero_add_eq {a b : τ} : a ≤ b → b ≤ a → 0 + a = 0 + b
  /-- where zero changes nothing, it changes no sum -/
  zero_add_add {a b : τ} : 0 + a = a → 0 + (a + b) = a + b
  /-- zero does not change itself -/
  zero_add_zero : (0 : τ) + 0 = 0
  /-- nor does it change one -/
  zero_add_one : (0 : τ) + 1 = 1
  /-- zero is before one -/
  zero_lt_one : (0 : τ) < 1
  /-- and not behind eight -/
  zero_le_eight : (0 : τ) ≤ 8
  /-- a product of what is not negative is not negative -/
  mul_nonneg {a b : τ} : ¬a < 0 → ¬b < 0 → ¬a * b < 0
  /-- nor is a quotient, if the divisor is not zero -/
  div_nonneg {a b : τ} : ¬a < 0 → ¬b ≤ 0 → ¬a / b < 0
  /-- conversion keeps what is not negative -/
  ofQuantity_nonneg {q : Quantity} {t : τ} :
    q.isNegative = false → ofQuantity? q = some t → ¬t < 0
  /-- and what is neither negative nor zero -/
  ofQuantity_pos {q : Quantity} {t : τ} :
    q.isAtMostZero = false → ofQuantity? q = some t → ¬t ≤ 0

/-- Times can be compared in a chain. -/
instance {τ : Type} [Timescale τ] [Ordered τ] : Trans (LE.le : τ → τ → Prop) LE.le LE.le :=
  ⟨Ordered.le_trans⟩

variable {τ : Type} [Timescale τ] [Arithmetic τ] {a b c : τ}

/-! ## sums -/

/-- A sum with NaN is NaN, on either side. -/
theorem isNumber_right_of_add (h : IsNumber (a + b)) : IsNumber b := by
  rw [Arithmetic.add_comm] at h
  exact Ordered.isNumber_of_add h

/-- Sums that are numbers are in the order of their second terms as well. -/
theorem add_le_add_left (h : b ≤ c) (hab : IsNumber (a + b)) (hac : IsNumber (a + c)) :
    a + b ≤ a + c := by
  rw [Arithmetic.add_comm a b, Arithmetic.add_comm a c] at *
  exact Arithmetic.add_le_add_right h hab hac

/-- A number that is not below zero is at or above it. -/
theorem nonneg_of_not_lt (hnum : IsNumber a) (h : ¬a < 0) : 0 ≤ a :=
  le_of_not_lt hnum Ordered.isNumber_zero h

/-- Adding what is not negative does not lead below, unless it leads to NaN. -/
theorem le_add (hb : ¬b < 0) (h : IsNumber (a + b)) : a ≤ a + b := by
  have ha : IsNumber a := Ordered.isNumber_of_add h
  have hb : 0 ≤ b := nonneg_of_not_lt (isNumber_right_of_add h) hb
  have hzero : a ≤ 0 + a := Arithmetic.le_zero_add ha
  rw [Arithmetic.add_comm] at h ⊢
  exact Ordered.le_trans hzero (Arithmetic.add_le_add_right hb (Ordered.isNumber_right hzero) h)

/-- A sum of what is not negative is not negative. -/
theorem add_nonneg (ha : ¬a < 0) (hb : ¬b < 0) : ¬a + b < 0 := by
  intro h
  have hnum : IsNumber (a + b) := Ordered.isNumber_left (le_of_lt h)
  have hle : 0 ≤ a := nonneg_of_not_lt (Ordered.isNumber_of_add hnum) ha
  exact not_lt_of_le (Ordered.le_trans hle (le_add hb hnum)) h

/-- What is not below one is neither negative nor zero. -/
theorem not_le_zero_of_not_lt_one (h : ¬a < 1) : ¬a ≤ 0 := by
  intro hle
  have hone : (0 : τ) < 1 := Arithmetic.zero_lt_one
  refine h (Ordered.lt_iff.mpr ⟨Ordered.le_trans hle (le_of_lt hone), fun hback => ?_⟩)
  exact not_lt_of_le (Ordered.le_trans hback hle) hone

/-! ## zeros -/

/-- A time that zero can be added to without a change, as it can to every double but
negative zero. -/
def IsPlain (t : τ) : Prop := 0 + t = t

/-- A sum is plain if one of its terms is. -/
theorem isPlain_add_left (h : IsPlain a) : IsPlain (a + b) := Arithmetic.zero_add_add h

theorem isPlain_add_right (h : IsPlain b) : IsPlain (a + b) := by
  rw [Arithmetic.add_comm]
  exact isPlain_add_left h

omit [Arithmetic τ] in
/-- The larger of two plain times is plain. -/
theorem isPlain_larger (ha : IsPlain a) (hb : IsPlain b) : IsPlain (larger a b) := by
  unfold larger
  split
  · exact hb
  · exact ha

omit [Arithmetic τ] in
theorem isPlain_foldl_larger {ts : List τ} (ha : IsPlain a) (hts : ∀ t ∈ ts, IsPlain t) :
    IsPlain (ts.foldl larger a) := by
  induction ts generalizing a with
  | nil => exact ha
  | cons t ts ih =>
      obtain ⟨ht, hts⟩ := List.forall_mem_cons.mp hts
      exact ih (isPlain_larger ha ht) hts

omit [Arithmetic τ] in
/-- So is the largest of many. -/
theorem isPlain_largest {ts : List τ} (h : IsPlain a) (hts : ∀ t ∈ ts, IsPlain t) :
    IsPlain (largest a ts) := by
  cases ts with
  | nil => exact h
  | cons t ts =>
      obtain ⟨ht, hts⟩ := List.forall_mem_cons.mp hts
      exact isPlain_foldl_larger ht hts

/-- Plain times that cannot be told apart are the same. -/
theorem IsPlain.eq (ha : IsPlain a) (hb : IsPlain b) (hab : a ≤ b) (hba : b ≤ a) : a = b := by
  rw [← ha, ← hb]
  exact Arithmetic.zero_add_eq hab hba

omit [Arithmetic τ] in
/-- The running maximum is one of the times. -/
theorem foldl_larger_mem (ts : List τ) (a : τ) : ts.foldl larger a ∈ a :: ts := by
  induction ts generalizing a with
  | nil => exact List.mem_cons_self
  | cons t ts ih =>
      rw [List.foldl_cons]
      cases List.mem_cons.mp (ih (larger a t)) with
      | inl h =>
          rw [h]
          unfold larger
          split
          · exact List.mem_cons_of_mem a List.mem_cons_self
          · exact List.mem_cons_self
      | inr h => exact List.mem_cons_of_mem a (List.mem_cons_of_mem t h)

omit [Arithmetic τ] in
/-- So is the largest of a list that is not empty. -/
theorem largest_mem {ts : List τ} (default : τ) (hne : ts ≠ []) : largest default ts ∈ ts := by
  obtain ⟨t, ts, rfl⟩ := List.exists_cons_of_ne_nil hne
  exact foldl_larger_mem ts t

/-- **The largest of a list** does not depend on the order, unless NaN or a negative
zero is in it. -/
theorem largest_eq_of_perm {ts us : List τ} (default : τ) (h : ts.Perm us)
    (hnum : ∀ t ∈ ts, IsNumber t) (hplain : ∀ t ∈ ts, IsPlain t) :
    largest default ts = largest default us := by
  by_cases hne : ts = []
  · have hus : us = [] := List.nil_perm.mp (hne ▸ h)
    rw [hne, hus]
  · have hne' : us ≠ [] := fun h' => hne (List.perm_nil.mp (h' ▸ h))
    have hts : largest default ts ∈ us := h.mem_iff.mp (largest_mem default hne)
    have hus : largest default us ∈ ts := h.mem_iff.mpr (largest_mem default hne')
    have hnum' (u : τ) (hu : u ∈ us) : IsNumber u := hnum u (h.mem_iff.mpr hu)
    exact (hplain _ (largest_mem default hne)).eq (hplain _ hus) (le_largest default hnum' hts)
      (le_largest default hnum hus)

end Timescale

end SharedLink
