import SharedLink.Proofs.Sums

/-!
# SharedLink.Proofs.Ranks

The order of quantities.

An integer and a double are compared without rounding, so all quantities but NaN stand on
one line: the finite ones in units of the smallest double, the infinities on either side.
An integer of any size has its place there.

* `Quantity.place` — where a quantity stands;
* `Quantity.before_iff` — one quantity is before another just if its place is;
* `Quantity.strictWeakOn_before` — so ranks can be sorted and selected by;
* `Quantity.before_iff_lt` — those with exact values are in the order of these.
-/

namespace SharedLink

namespace Binary64

open Float.Model.UnpackedFloat

/-- A count of units with a sign. -/
def signed (negative : Bool) (count : Nat) : Int := if negative then -count else count

/-- Where a double stands: between the infinities in units of the smallest double. -/
def Reading.place : Reading → ℤ ×ₗ ℤ
  | .nan => toLex (0, 0)
  | .infinite negative => toLex (signed negative 1, 0)
  | .finite negative m e => toLex (0, signed negative (m * 2 ^ (e + 1074).toNat))

/-- Places are in the order of the infinities first and of the units between them. -/
theorem toLex_lt_toLex {a b m n : Int} :
    (toLex (a, m) : ℤ ×ₗ ℤ) < toLex (b, n) ↔ a < b ∨ a = b ∧ m < n := Prod.Lex.toLex_lt_toLex

/-! ## doubles -/

theorem units_unpacked_finite (negative : Bool) (m : Nat) (e : Int) :
    units (Reading.finite negative m e).unpacked = signed negative (m * 2 ^ (e + 1074).toNat) := by
  by_cases hm : m = 0
  · rw [unpacked_zero negative e hm, hm, Nat.zero_mul]
    cases negative <;> rfl
  · rw [unpacked_finite negative e hm]
    cases negative <;> rfl

theorem units_unpacked_infinite (negative : Bool) :
    units (Reading.infinite negative).unpacked = signed negative limit := by
  cases negative <;> rfl

/-- Finite doubles stand between the limits. -/
theorem signed_lt_limit {negative : Bool} {m : Nat} {e : Int}
    (h : IsCanonical (Reading.finite negative m e).unpacked) :
    -limit < signed negative (m * 2 ^ (e + 1074).toNat) ∧
      signed negative (m * 2 ^ (e + 1074).toNat) < limit := by
  rw [← units_unpacked_finite]
  refine units_lt_limit h ?_
  by_cases hm : m = 0
  · rw [unpacked_zero negative e hm]
    rfl
  · rw [unpacked_finite negative e hm]
    rfl

/-- What the arithmetic counts in units agrees with the places of doubles. -/
theorem units_lt_iff_place {a b : Reading} (ha : IsCanonical a.unpacked)
    (hb : IsCanonical b.unpacked) (hanum : a.unpacked.isNaN = false)
    (hbnum : b.unpacked.isNaN = false) :
    units a.unpacked < units b.unpacked ↔ a.place < b.place := by
  have hlimit := limit_pos
  cases a with
  | nan => cases hanum
  | infinite n =>
      cases b with
      | nan => cases hbnum
      | infinite n' =>
          rw [units_unpacked_infinite, units_unpacked_infinite, Reading.place, Reading.place,
            toLex_lt_toLex]
          cases n <;> cases n' <;> simp only [signed] <;> grind
      | finite n' m' e' =>
          have hfinite := signed_lt_limit hb
          rw [units_unpacked_infinite, units_unpacked_finite, Reading.place, Reading.place,
            toLex_lt_toLex]
          cases n <;> simp only [signed] at hfinite ⊢ <;> grind
  | finite n m e =>
      have hfinite := signed_lt_limit ha
      cases b with
      | nan => cases hbnum
      | infinite n' =>
          rw [units_unpacked_infinite, units_unpacked_finite, Reading.place, Reading.place,
            toLex_lt_toLex]
          cases n' <;> simp only [signed] at hfinite ⊢ <;> grind
      | finite n' m' e' =>
          rw [units_unpacked_finite, units_unpacked_finite, Reading.place, Reading.place,
            toLex_lt_toLex]
          grind

/-- A double is below another just if neither is NaN and it stands before the other. -/
theorem lt_iff_place {x y : Float} : x < y ↔ Timescale.IsNumber x ∧ Timescale.IsNumber y ∧
    (decode x).place < (decode y).place := by
  have hxcan := isCanonical x
  have hycan := isCanonical y
  rw [isNumber_iff, isNumber_iff, lt_iff]
  rw [unpack_eq_unpacked] at hxcan hycan ⊢
  rw [unpack_eq_unpacked y] at *
  refine and_congr_right fun hx => and_congr_right fun hy => ?_
  rw [← units_lt_iff_place hxcan hycan hx hy, lt_iff_not_ge, orderKey_le_iff hycan hxcan, not_le]

/-! ## integers among doubles -/

/-- No double has a smaller exponent than the smallest one. -/
theorem exponent_of_decode {x : Float} {negative : Bool} {m : Nat} {e : Int}
    (h : decode x = .finite negative m e) : -1074 ≤ e := by
  unfold decode at h
  dsimp only at h
  split at h
  · split at h <;> cases h
  · split at h
    · cases h
      exact le_rfl
    next hsub =>
      cases h
      omega

/-- How many units of the smallest double make one. -/
def unit : Nat := 2 ^ 1074

theorem unit_pos : 0 < unit := by
  unfold unit
  positivity

/-- Places between the infinities are in the order of the values that they count in units. -/
theorem toLex_lt_toLex_iff_lt {m n : Int} {r s : Rat} (hm : m = r * unit) (hn : n = s * unit) :
    (toLex (0, m) : ℤ ×ₗ ℤ) < toLex (0, n) ↔ r < s := by
  have hunit : (0 : Rat) < unit := Nat.cast_pos.mpr unit_pos
  rw [toLex_lt_toLex, ← mul_lt_mul_iff_of_pos_right hunit, ← hm, ← hn, Int.cast_lt]
  simp only [lt_irrefl, false_or, true_and]

/-- In units of the smallest double a fraction is a whole number. -/
theorem ratio_units (m : Nat) {e : Int} (he : -1074 ≤ e) :
    (ratio m e).1 * unit = m * 2 ^ (e + 1074).toNat * (ratio m e).2 := by
  have hsum : e.toNat + 1074 = (e + 1074).toNat + (-e).toNat := by omega
  unfold ratio Fraction.scaled unit
  dsimp only [Nat.pow_eq]
  rw [Nat.mul_assoc, ← Nat.pow_add, hsum, Nat.pow_add, Nat.mul_assoc]

/-- Two fractions of the same value, one of them in units, lie on the same side of a number. -/
theorem mul_lt_signed_iff {p q count unit : Nat} (hq : 0 < q) (hunit : 0 < unit)
    (h : p * unit = count * q) (n : Int) (negative : Bool) :
    (n * q < signed negative p ↔ n * unit < signed negative count) ∧
      (signed negative p < n * q ↔ signed negative count < n * unit) := by
  have hq : (0 : Int) < q := Int.natCast_pos.mpr hq
  have hunit : (0 : Int) < unit := Int.natCast_pos.mpr hunit
  have hsigned : signed negative p * unit = signed negative count * q := by
    have hcast : (p : Int) * unit = count * q := by exact_mod_cast h
    cases negative with
    | false => exact hcast
    | true => exact (neg_mul _ _).trans ((congrArg _ hcast).trans (neg_mul _ _).symm)
  have hcomm : n * q * unit = n * unit * q := by ring
  constructor
  · rw [← mul_lt_mul_iff_of_pos_right hunit, hsigned, hcomm, mul_lt_mul_iff_of_pos_right hq]
  · rw [← mul_lt_mul_iff_of_pos_right hunit, hsigned, hcomm, mul_lt_mul_iff_of_pos_right hq]

/-- An integer is compared with a double by their places. -/
theorem intBefore_iff {n : Int} {x : Float} (hx : Timescale.IsNumber x) :
    (intBefore n x = true ↔ toLex (0, n * unit) < (decode x).place) ∧
      (beforeInt x n = true ↔ (decode x).place < toLex (0, n * unit)) := by
  rw [isNumber_iff, unpack_eq_unpacked] at hx
  unfold intBefore beforeInt
  cases hdecode : decode x with
  | nan =>
      rw [hdecode] at hx
      cases hx
  | infinite negative =>
      simp only [Reading.place, toLex_lt_toLex]
      cases negative <;> simp only [signed] <;> grind
  | finite negative m e =>
      have hden : 0 < (ratio m e).2 := Nat.pow_pos (by decide)
      obtain ⟨hbelow, habove⟩ := mul_lt_signed_iff hden unit_pos
        (ratio_units m (exponent_of_decode hdecode)) n negative
      simp only [decide_eq_true_eq, Reading.place, toLex_lt_toLex, lt_irrefl, false_or, true_and]
      exact ⟨hbelow, habove⟩

/-! ## exact values -/

/-- A fraction of the same value as a number in units stands for as many units. -/
theorem signed_eq_mkRat {p q count unit : Nat} (hq : q ≠ 0) (h : p * unit = count * q)
    (negative : Bool) :
    (signed negative count : Rat) = mkRat (if negative then -(p : Int) else p) q * unit := by
  have hcast : (p : Rat) * unit = count * q := by exact_mod_cast h
  have hq : (q : Rat) ≠ 0 := Nat.cast_ne_zero.mpr hq
  rw [Rat.mkRat_eq_div, div_mul_eq_mul_div]
  refine (eq_div_iff (by exact_mod_cast hq)).mpr ?_
  cases negative with
  | false => exact hcast.symm
  | true =>
      unfold signed
      rw [if_pos rfl, if_pos rfl]
      push_cast
      rw [neg_mul, neg_mul, hcast]

/-- A finite double is not NaN. -/
theorem isNumber_of_decode {x : Float} {negative : Bool} {m : Nat} {e : Int}
    (h : decode x = .finite negative m e) : Timescale.IsNumber x := by
  rw [isNumber_iff, unpack_eq_unpacked, h]
  by_cases hm : m = 0
  · rw [unpacked_zero negative e hm]
    rfl
  · rw [unpacked_finite negative e hm]
    rfl

/-- A finite double is not NaN, and it stands where its value is. -/
theorem place_of_value {x : Float} {r : Rat} (h : value? x = some r) :
    Timescale.IsNumber x ∧ ∃ count : Int, (decode x).place = toLex (0, count) ∧
      count = r * unit := by
  unfold value? at h
  split at h
  next negative m e hdecode =>
    have hden : (ratio m e).2 ≠ 0 := Nat.ne_of_gt (Nat.pow_pos (by decide))
    have hunits := ratio_units m (exponent_of_decode hdecode)
    refine ⟨isNumber_of_decode hdecode, _, congrArg Reading.place hdecode, ?_⟩
    rw [← Option.some.inj h]
    exact signed_eq_mkRat hden hunits negative
  · cases h

end Binary64

/-! ## quantities -/

namespace Quantity

open Binary64

/-- An integer, or a double that is not NaN. -/
def IsNumber : Quantity → Prop
  | int _ => True
  | double x => Timescale.IsNumber x

instance : DecidablePred IsNumber
  | int _ => inferInstanceAs (Decidable True)
  | double x => inferInstanceAs (Decidable (Timescale.IsNumber x))

/-- Where a quantity stands among all quantities. -/
def place : Quantity → ℤ ×ₗ ℤ
  | int n => toLex (0, n * unit)
  | double x => (decode x).place

/-- **One line**: of two quantities that are not NaN one is before the other just if it stands
before it. -/
theorem before_iff {a b : Quantity} (ha : a.IsNumber) (hb : b.IsNumber) :
    a.before b = true ↔ a.place < b.place := by
  cases a with
  | int m =>
      cases b with
      | int n =>
          have hunit : (0 : Int) < unit := Int.natCast_pos.mpr unit_pos
          unfold before place
          rw [decide_eq_true_eq, toLex_lt_toLex, mul_lt_mul_iff_of_pos_right hunit]
          simp only [lt_irrefl, false_or, true_and]
      | double y => exact (intBefore_iff hb).1
  | double x =>
      cases b with
      | int n => exact (intBefore_iff ha).2
      | double y =>
          unfold before place
          rw [decide_eq_true_eq, lt_iff_place]
          exact ⟨fun h => h.2.2, fun h => ⟨ha, hb, h⟩⟩

/-- Quantities are in a strict weak order but for NaN. -/
theorem strictWeakOn_before : StrictWeakOn before IsNumber where
  asymm {a b} ha hb h := by
    rw [← Bool.not_eq_true, before_iff hb ha]
    exact lt_asymm ((before_iff ha hb).mp h)
  trans {a b c} ha hb hc hba hcb := by
    rw [← Bool.not_eq_true, before_iff hb ha, not_lt] at hba
    rw [← Bool.not_eq_true, before_iff hc hb, not_lt] at hcb
    rw [← Bool.not_eq_true, before_iff hc ha, not_lt]
    exact le_trans hba hcb

/-- A quantity with a value is not NaN, and it stands where the value is. -/
theorem place_of_toRat {q : Quantity} {r : Rat} (h : q.toRat? = some r) :
    q.IsNumber ∧ ∃ count : Int, q.place = toLex (0, count) ∧ count = r * unit := by
  cases q with
  | int n =>
      refine ⟨trivial, n * unit, rfl, ?_⟩
      rw [← Option.some.inj h, Int.cast_mul, Int.cast_natCast]
  | double x => exact place_of_value h

/-- Quantities with values are in the order of these. -/
theorem before_iff_lt {a b : Quantity} {r s : Rat} (ha : a.toRat? = some r)
    (hb : b.toRat? = some s) : a.before b = true ↔ r < s := by
  obtain ⟨hanum, m, hm, hmr⟩ := place_of_toRat ha
  obtain ⟨hbnum, n, hn, hns⟩ := place_of_toRat hb
  rw [before_iff hanum hbnum, hm, hn, toLex_lt_toLex_iff_lt hmr hns]

end Quantity

end SharedLink
