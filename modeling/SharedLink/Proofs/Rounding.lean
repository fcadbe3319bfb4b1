import Mathlib.Algebra.Order.Ring.Nat
import Mathlib.Data.Nat.Bits
import Mathlib.Data.Nat.Log
import SharedLink.Fraction

/-!
# SharedLink.Proofs.Rounding

How doubles round.

The arithmetic of doubles shifts a mantissa to 53 bits, keeps the last bit that it
loses and whether it has lost any other, and rounds by these two.  Counted in
units of the smallest double, this is the integer nearest to the exact result
among those with 53 significant bits, a half going to the even one.

* `nearest_mono` — rounding keeps the order, and so does all that is made of it;
* `nearest_mul_two_pow` — what fits a mantissa is kept;
* `round_eq` — the rounding of the arithmetic is this one.
-/

namespace SharedLink

namespace Fraction

/-! ## rounded quotients -/

/-- A rounded quotient is the quotient or the number above it. -/
theorem div_le_roundDiv (num den : Nat) : num / den ≤ roundDiv num den := by
  simp only [roundDiv]
  split
  · exact Nat.le_refl _
  · split <;> omega

theorem roundDiv_le_div_add_one (num den : Nat) : roundDiv num den ≤ num / den + 1 := by
  simp only [roundDiv]
  split
  · omega
  · split <;> omega

/-- Rounding keeps the order of numerators, which is that of the remainders where the quotients
are the same. -/
theorem roundDiv_mono {num num' : Nat} (den : Nat) (h : num ≤ num') :
    roundDiv num den ≤ roundDiv num' den := by
  have hq : num / den ≤ num' / den := Nat.div_le_div_right h
  obtain hlt | heq := Nat.lt_or_eq_of_le hq
  · calc
      roundDiv num den ≤ num / den + 1 := roundDiv_le_div_add_one num den
      _ ≤ num' / den := hlt
      _ ≤ roundDiv num' den := div_le_roundDiv num' den
  · have hr : num % den ≤ num' % den := by
      have hd := Nat.div_add_mod num den
      have hd' := Nat.div_add_mod num' den
      rw [heq] at hd
      omega
    simp only [roundDiv, heq]
    split <;> split <;> try split
    all_goals try split
    all_goals omega

/-- Fractions of equal value are rounded alike. -/
theorem roundDiv_mul_mul (num den : Nat) {c : Nat} (hc : 0 < c) :
    roundDiv (num * c) (den * c) = roundDiv num den := by
  have hlt (a b : Nat) : 2 * (a * c) < b * c ↔ 2 * a < b := by
    rw [← Nat.mul_assoc, Nat.mul_lt_mul_right hc]
  have hgt (a b : Nat) : b * c < 2 * (a * c) ↔ b < 2 * a := by
    rw [← Nat.mul_assoc, Nat.mul_lt_mul_right hc]
  simp only [roundDiv, Nat.mul_div_mul_right num den hc, Nat.mul_mod_mul_right, hlt, hgt]

/-- A quotient without remainder is not changed by rounding. -/
theorem roundDiv_of_dvd {num den : Nat} (hden : 0 < den) (h : den ∣ num) :
    roundDiv num den = num / den := by
  obtain ⟨q, rfl⟩ := h
  rw [Nat.mul_comm, roundDiv_mul hden, Nat.mul_div_cancel q hden]

/-- What is at most a multiple of the denominator is rounded to that multiple at most. -/
theorem roundDiv_le_of_le_mul {num den q : Nat} (hden : 0 < den) (h : num ≤ q * den) :
    roundDiv num den ≤ q := by
  have hmono := roundDiv_mono den h
  rwa [roundDiv_mul hden] at hmono

theorem le_roundDiv_of_mul_le {num den q : Nat} (hden : 0 < den) (h : q * den ≤ num) :
    q ≤ roundDiv num den := by
  have hmono := roundDiv_mono den h
  rwa [roundDiv_mul hden] at hmono

/-- A fraction of powers of two is rounded as the one that is left when they are cancelled. -/
theorem roundDiv_two_pow (m u v : Nat) :
    roundDiv (m * 2 ^ (u - v)) (2 ^ (v - u)) = roundDiv (m * 2 ^ u) (2 ^ v) := by
  have hnum : m * 2 ^ (u - v) * 2 ^ min u v = m * 2 ^ u := by
    have hu : u - v + min u v = u := by omega
    rw [Nat.mul_assoc, ← Nat.pow_add, hu]
  have hden : 2 ^ (v - u) * 2 ^ min u v = 2 ^ v := by
    have hv : v - u + min u v = v := by omega
    rw [← Nat.pow_add, hv]
  rw [← roundDiv_mul_mul _ _ (Nat.two_pow_pos (min u v)), hnum, hden]

end Fraction

namespace Binary64

open Fraction

/-! ## numbers with the bits of a mantissa -/

/-- How many of the bits of a number do not fit a mantissa. -/
def excess (n : Nat) : Nat := n.log2 - 52

/-- The number nearest to `n` with 53 significant bits, a half to the even one. -/
def nearest (n : Nat) : Nat := roundDiv n (2 ^ excess n) * 2 ^ excess n

/-- Doubling a number adds a bit. -/
theorem log2_mul_two_pow {m : Nat} (j : Nat) (h : m ≠ 0) : (m * 2 ^ j).log2 = m.log2 + j := by
  have hpos : m * 2 ^ j ≠ 0 := Nat.mul_ne_zero h (Nat.ne_of_gt (Nat.two_pow_pos j))
  rw [Nat.log2_eq_iff hpos]
  constructor
  · rw [Nat.pow_add]
    exact Nat.mul_le_mul_right _ (Nat.log2_self_le h)
  · rw [Nat.add_right_comm, Nat.pow_add]
    exact Nat.mul_lt_mul_of_pos_right Nat.lt_log2_self (Nat.two_pow_pos j)

theorem excess_mono {m n : Nat} (h : m ≤ n) : excess m ≤ excess n := by
  have : m.log2 ≤ n.log2 := by
    rw [Nat.log2_eq_log_two, Nat.log2_eq_log_two]
    exact Nat.log_mono_right h
  unfold excess
  omega

/-- The bits that fit a mantissa and those that do not are all bits. -/
theorem lt_two_pow_excess (n : Nat) : n < 2 ^ 53 * 2 ^ excess n := by
  have hlog : n.log2 + 1 ≤ 53 + excess n := by unfold excess; omega
  calc
    n < 2 ^ (n.log2 + 1) := Nat.lt_log2_self
    _ ≤ 2 ^ (53 + excess n) := Nat.pow_le_pow_right (by decide) hlog
    _ = 2 ^ 53 * 2 ^ excess n := Nat.pow_add 2 53 _

/-- Where bits are left over, the highest one is the first of the mantissa. -/
theorem two_pow_excess_le {n : Nat} (h : 0 < excess n) : 2 ^ 52 * 2 ^ excess n ≤ n := by
  have hlog : 52 + excess n = n.log2 := by unfold excess at h ⊢; omega
  have hn : n ≠ 0 := by
    rintro rfl
    exact absurd h (by decide)
  rw [← Nat.pow_add, hlog]
  exact Nat.log2_self_le hn

/-- Without those bits a number is rounded to a mantissa, or to the first number above all. -/
theorem roundDiv_excess_le (n : Nat) : roundDiv n (2 ^ excess n) ≤ 2 ^ 53 :=
  roundDiv_le_of_le_mul (Nat.two_pow_pos _) (Nat.le_of_lt (lt_two_pow_excess n))

/-- Where bits are left over, that has the highest bit of a mantissa. -/
theorem le_roundDiv_excess {n : Nat} (h : 0 < excess n) : 2 ^ 52 ≤ roundDiv n (2 ^ excess n) :=
  le_roundDiv_of_mul_le (Nat.two_pow_pos _) (two_pow_excess_le h)

/-- **Monotony**: rounding to a mantissa keeps the order, since a power of two lies between numbers
of different lengths, and is kept. -/
theorem nearest_mono {m n : Nat} (h : m ≤ n) : nearest m ≤ nearest n := by
  unfold nearest
  obtain hlt | heq := Nat.lt_or_eq_of_le (excess_mono h)
  · calc
      roundDiv m (2 ^ excess m) * 2 ^ excess m ≤ 2 ^ 53 * 2 ^ excess m :=
        Nat.mul_le_mul_right _ (roundDiv_excess_le m)
      _ = 2 ^ 52 * 2 ^ (excess m + 1) := by rw [Nat.pow_succ]; omega
      _ ≤ 2 ^ 52 * 2 ^ excess n := Nat.mul_le_mul_left _ (Nat.pow_le_pow_right (by decide) hlt)
      _ ≤ roundDiv n (2 ^ excess n) * 2 ^ excess n :=
        Nat.mul_le_mul_right _ (le_roundDiv_excess (Nat.zero_lt_of_lt hlt))
  · rw [heq]
    exact Nat.mul_le_mul_right _ (roundDiv_mono _ h)

/-- A number whose lowest bits are zero is kept. -/
theorem nearest_of_dvd {n : Nat} (h : 2 ^ excess n ∣ n) : nearest n = n := by
  unfold nearest
  rw [roundDiv_of_dvd (Nat.two_pow_pos _) h, Nat.div_mul_cancel h]

/-- What fits a mantissa is kept. -/
theorem nearest_mul_two_pow {m : Nat} (j : Nat) (h : m < 2 ^ 53) :
    nearest (m * 2 ^ j) = m * 2 ^ j := by
  apply nearest_of_dvd
  by_cases hm : m = 0
  · rw [hm, Nat.zero_mul]
    exact Nat.dvd_zero _
  · have hlog : m.log2 < 53 := (Nat.log2_lt hm).mpr h
    have hexcess : excess (m * 2 ^ j) ≤ j := by
      unfold excess
      rw [log2_mul_two_pow j hm]
      omega
    exact Nat.dvd_mul_left_of_dvd (Nat.pow_dvd_pow 2 hexcess) m

/-! ## the rounding of the arithmetic -/

open Float.Model (UnpackedFloat Format totalExponent)
open Float.Model.UnpackedFloat

/-- Shifting keeps the quotient, the bit below it, and whether any bit is set below that. -/
theorem shiftRight_succ (m k : Nat) :
    ExtendedMantissa.ofMantissaAndAccuracy m .exact >>> (k + 1) =
      ⟨m / 2 ^ (k + 1), m / 2 ^ k % 2 != 0, m % 2 ^ k != 0⟩ := by
  induction k with
  | zero =>
      change ExtendedMantissa.shiftRightOne ⟨m, false, false⟩ = _
      simp [ExtendedMantissa.shiftRightOne, Nat.mod_one]
  | succ k ih =>
      change ExtendedMantissa.shiftRightOne
        (ExtendedMantissa.ofMantissaAndAccuracy m .exact >>> (k + 1)) = _
      have hdiv : m / 2 ^ (k + 1) / 2 = m / 2 ^ (k + 1 + 1) := by
        rw [Nat.div_div_eq_div_mul, ← Nat.pow_succ]
      have hmod : m % 2 ^ (k + 1) = m % 2 ^ k + 2 ^ k * (m / 2 ^ k % 2) := Nat.mod_pow_succ
      have hpow : 0 < 2 ^ k := Nat.two_pow_pos k
      rw [ih]
      simp only [ExtendedMantissa.shiftRightOne, hdiv, hmod]
      congr 1
      have hbit : m / 2 ^ k % 2 = 0 ∨ m / 2 ^ k % 2 = 1 := by omega
      rw [Bool.eq_iff_iff]
      cases hbit with
      | inl h => simp [h]
      | inr h => simp [h]

/-- The bit below a mantissa decides, and where it is the only one, evenness. -/
theorem roundedMantissa_mk (q : Nat) (bit rest : Bool) :
    (ExtendedMantissa.mk q bit rest).roundedMantissa =
      if bit then (if rest then q + 1 else q + q % 2) else q := by
  cases bit <;> cases rest <;> rfl

/-- A shifted mantissa is rounded as the quotient. -/
theorem roundedMantissa_shiftRight (m k : Nat) :
    (ExtendedMantissa.ofMantissaAndAccuracy m .exact >>> k).roundedMantissa =
      roundDiv m (2 ^ k) := by
  cases k with
  | zero =>
      change m = roundDiv m 1
      simp [roundDiv, Nat.mod_one]
  | succ k =>
      have hmod : m % 2 ^ (k + 1) = m % 2 ^ k + 2 ^ k * (m / 2 ^ k % 2) := Nat.mod_pow_succ
      have hlt : m % 2 ^ k < 2 ^ k := Nat.mod_lt m (Nat.two_pow_pos k)
      have hpow : 2 ^ (k + 1) = 2 * 2 ^ k := by rw [Nat.pow_succ, Nat.mul_comm]
      have hbit : m / 2 ^ k % 2 = 0 ∨ m / 2 ^ k % 2 = 1 := by omega
      rw [shiftRight_succ, roundedMantissa_mk]
      unfold roundDiv
      dsimp only
      cases hbit with
      | inl h =>
          have hlow : 2 * (m % 2 ^ (k + 1)) < 2 ^ (k + 1) := by rw [hmod, h]; omega
          simp [h, hlow]
      | inr h =>
          have hnlow : ¬2 * (m % 2 ^ (k + 1)) < 2 ^ (k + 1) := by rw [hmod, h]; omega
          have hhigh : 2 ^ (k + 1) < 2 * (m % 2 ^ (k + 1)) ↔ m % 2 ^ k ≠ 0 := by
            rw [hmod, h]
            omega
          simp [h, hnlow, hhigh]

theorem targetExponent_eq (m : Nat) (e : Int) :
    Format.binary64.targetExponent (totalExponent m e) = max (m.log2 + e - 52) (-1074) := by
  change max ((m.log2 : Int) + 1 + e - 53) (-1074) = _
  congr 1
  omega

/-- Shifting to the target exponent, by as many bits as it is above the exponent. -/
theorem shiftToTargetExponent_eq (m k u : Nat) (h : max (m.log2 + u - 52) 0 - u = k) :
    shiftToTargetExponent .binary64 m ((u : Int) - 1074) .exact =
      (ExtendedMantissa.ofMantissaAndAccuracy m .exact >>> k, ((u + k : Nat) : Int) - 1074) := by
  have hk : (max ((m.log2 : Int) + ((u : Int) - 1074) - 52) (-1074) -
      ((u : Int) - 1074)).toNat = k := by omega
  have he : (u : Int) - 1074 + k = ((u + k : Nat) : Int) - 1074 := by omega
  simp only [shiftToTargetExponent, shiftToExponent, targetExponent_eq, hk, he]

/-- Lowering an exponent makes room for zeros. -/
theorem decreaseExponent_eq (m u v : Nat) :
    decreaseExponent m ((u : Int) - 1074) ((v : Int) - 1074) =
      (m * 2 ^ (u - v), ((min u v : Nat) : Int) - 1074) := by
  have hshift : ((u : Int) - 1074 - ((v : Int) - 1074)).toNat = u - v := by omega
  have he : (u : Int) - 1074 - (u - v : Nat) = ((min u v : Nat) : Int) - 1074 := by omega
  simp only [decreaseExponent, hshift, Nat.shiftLeft_eq, he]

/-- A mantissa and an exponent of a double, unless the exponent is too large. -/
structure Fits (m : Nat) (e : Int) : Prop where
  mantissa : m < 2 ^ 53
  exponent : -1074 ≤ e
  normal : 2 ^ 52 ≤ m ∨ e = -1074

/-- A mantissa that was rounded up to 53 zeros is shifted once more. -/
theorem roundWithAccuracy_of_shift {s : Sign} {m u r v : Nat} {em : ExtendedMantissa}
    (hshift : shiftToTargetExponent .binary64 m ((u : Int) - 1074) .exact = (em, (v : Int) - 1074))
    (hr : em.roundedMantissa = r) (hpos : 0 < r) (hle : r ≤ 2 ^ 53)
    (hnormal : 2 ^ 52 ≤ r ∨ v = 0) :
    ∃ m' v' h, roundWithAccuracy .binary64 s m ((u : Int) - 1074) .exact =
      .finite s m' (((v' : Nat) : Int) - 1074) h ∧ Fits m' ((v' : Int) - 1074) ∧
        m' * 2 ^ v' = r * 2 ^ v := by
  unfold roundWithAccuracy
  rw [hshift]
  dsimp only
  rw [hr]
  obtain hlt | heq := Nat.lt_or_eq_of_le hle
  · have hlog : r.log2 < 53 := (Nat.log2_lt (Nat.ne_of_gt hpos)).mpr hlt
    rw [shiftToTargetExponent_eq r 0 v (by omega)]
    refine ⟨r, v, hpos, dif_neg (Nat.ne_of_gt hpos), ⟨hlt, by omega, by omega⟩, rfl⟩
  · have hlog : (2 ^ 53).log2 = 53 := Nat.log2_two_pow
    rw [heq, shiftToTargetExponent_eq (2 ^ 53) 1 v (by omega)]
    have hhalf : ExtendedMantissa.ofMantissaAndAccuracy (2 ^ 53) .exact >>> 1 =
        ⟨2 ^ 52, false, false⟩ := rfl
    have hne : (2 ^ 52 : Nat) ≠ 0 := by decide
    rw [hhalf]
    refine ⟨2 ^ 52, v + 1, by decide, dif_neg hne, ?_, ?_⟩
    · exact ⟨by decide, by omega, .inl (Nat.le_refl _)⟩
    · rw [Nat.pow_succ]
      omega

/-- **Rounding**: the arithmetic rounds a mantissa to the nearest one, in units of the smallest
double.  The exponent is lowered first, where the mantissa is short of bits, and then raised, where
it has bits left over. -/
theorem round_eq (s : Sign) {m : Nat} (hm : 0 < m) (u : Nat) :
    ∃ m' v h, UnpackedFloat.round .binary64 s m ((u : Int) - 1074) =
        .finite s m' (((v : Nat) : Int) - 1074) h ∧
      Fits m' ((v : Int) - 1074) ∧ m' * 2 ^ v = nearest (m * 2 ^ u) := by
  obtain ⟨n, hn⟩ : ∃ n, m * 2 ^ u = n := ⟨_, rfl⟩
  have hlog : n.log2 = m.log2 + u := hn ▸ log2_mul_two_pow u (Nat.ne_of_gt hm)
  have hexcess : excess n = m.log2 + u - 52 := by unfold excess; rw [hlog]
  have hlower : UnpackedFloat.round .binary64 s m ((u : Int) - 1074) =
      roundWithAccuracy .binary64 s (m * 2 ^ (u - excess n))
        (((min u (excess n) : Nat) : Int) - 1074) .exact := by
    have htarget : max ((m.log2 : Int) + ((u : Int) - 1074) - 52) (-1074) =
        (excess n : Int) - 1074 := by omega
    unfold UnpackedFloat.round
    rw [targetExponent_eq, htarget]
    dsimp only
    rw [decreaseExponent_eq]
  have hraise : shiftToTargetExponent .binary64 (m * 2 ^ (u - excess n))
      (((min u (excess n) : Nat) : Int) - 1074) .exact =
        (ExtendedMantissa.ofMantissaAndAccuracy (m * 2 ^ (u - excess n)) .exact >>>
          (excess n - u), (excess n : Int) - 1074) := by
    have hv : min u (excess n) + (excess n - u) = excess n := by omega
    rw [shiftToTargetExponent_eq _ (excess n - u), hv]
    rw [log2_mul_two_pow _ (Nat.ne_of_gt hm)]
    omega
  have hrounded : (ExtendedMantissa.ofMantissaAndAccuracy (m * 2 ^ (u - excess n)) .exact >>>
      (excess n - u)).roundedMantissa = roundDiv n (2 ^ excess n) := by
    rw [roundedMantissa_shiftRight, roundDiv_two_pow, hn]
  have hnpos : 0 < n := hn ▸ Nat.mul_pos hm (Nat.two_pow_pos u)
  have hnormal : 2 ^ 52 ≤ roundDiv n (2 ^ excess n) ∨ excess n = 0 := by
    obtain hzero | hsome := Nat.eq_zero_or_pos (excess n)
    · exact .inr hzero
    · exact .inl (le_roundDiv_excess hsome)
  have hpos : 0 < roundDiv n (2 ^ excess n) := by
    cases hnormal with
    | inl h => omega
    | inr h =>
        rw [h]
        exact le_roundDiv_of_mul_le Nat.one_pos (by omega)
  obtain ⟨m', v, h, hresult, hfits, hvalue⟩ := roundWithAccuracy_of_shift (s := s) hraise
    hrounded hpos (roundDiv_excess_le n) hnormal
  refine ⟨m', v, h, hlower.trans hresult, hfits, ?_⟩
  rw [hvalue, hn]
  rfl

end Binary64

end SharedLink
