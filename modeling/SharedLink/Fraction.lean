/-!
# SharedLink.Fraction

Fractions of natural numbers: powers as fractions, and rounding to an integer.

A fraction is a numerator and a denominator, not in lowest terms.

* `roundDiv_le` and `le_roundDiv` — the rounded quotient is within half a unit;
* `roundDiv_mul` — an exact quotient is kept.
-/

namespace SharedLink

namespace Fraction

/-- `m · base ^ e`. -/
def scaled (base m : Nat) (e : Int) : Nat × Nat :=
  (m * Nat.pow base e.toNat, Nat.pow base (-e).toNat)

/-- `num / den` in units of `base ^ e`. -/
def inUnits (base : Nat) (e : Int) (num den : Nat) : Nat × Nat :=
  (num * Nat.pow base (-e).toNat, den * Nat.pow base e.toNat)

/-- Whether `base ^ e ≤ num / den`. -/
def atLeastPower (base : Nat) (e : Int) (num den : Nat) : Bool :=
  decide ((inUnits base e num den).2 ≤ (inUnits base e num den).1)

/-! ## rounding -/

/-- The natural number nearest to `num / den`; a half goes to the even one. -/
def roundDiv (num den : Nat) : Nat :=
  let q := num / den
  let twice := 2 * (num % den)
  if twice < den then q else if den < twice then q + 1 else q + q % 2

/-- Rounding goes up by at most half a unit. -/
theorem roundDiv_le {num den : Nat} (h : 0 < den) :
    2 * (roundDiv num den * den) ≤ 2 * num + den := by
  have hd := Nat.div_add_mod num den
  have hm := Nat.mod_lt num h
  have hq : num / den % 2 ≤ 1 := by omega
  rw [Nat.mul_comm] at hd
  simp only [roundDiv]
  split
  · omega
  · split
    · rw [Nat.add_mul]; omega
    · rw [Nat.add_mul]
      have : num / den % 2 * den ≤ 1 * den := Nat.mul_le_mul_right den hq
      omega

/-- Rounding goes down by at most half a unit. -/
theorem le_roundDiv {num den : Nat} (h : 0 < den) :
    2 * num ≤ 2 * (roundDiv num den * den) + den := by
  have hd := Nat.div_add_mod num den
  have hm := Nat.mod_lt num h
  rw [Nat.mul_comm] at hd
  simp only [roundDiv]
  split
  · omega
  · split
    · rw [Nat.add_mul]; omega
    · rw [Nat.add_mul]; omega

/-- A quotient without remainder is its own rounding. -/
theorem roundDiv_mul {q den : Nat} (h : 0 < den) : roundDiv (q * den) den = q := by
  simp [roundDiv, Nat.mul_div_cancel q h, h]

end Fraction

end SharedLink
