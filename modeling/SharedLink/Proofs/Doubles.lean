import Mathlib.Data.Prod.Lex
import Mathlib.Order.Compare
import SharedLink.Proofs.Times

/-!
# SharedLink.Proofs.Doubles

Doubles as times.

The arithmetic of doubles takes them apart into a sign, a mantissa and an
exponent, rounds, and packs the result again.  Nothing more is needed here than
that all doubles but NaN are in a total order, by a key of integers, and that
adding one to a number does not lead to NaN.

* `unpack_eq_unpacked` — the parts that the arithmetic sees are those of `decode`;
* `compare_eq` — doubles are compared by their keys;
* `Timescale.Ordered Float` — hence they are in order but for NaN;
* `toRat_nonneg` — a quantity that is not below zero stands for no negative number.
-/

namespace SharedLink

namespace Binary64

open Float.Model (UnpackedFloat Format)
open Float.Model.UnpackedFloat

/-! ## the parts of a double -/

/-- The sign of a double, by whether it is negative. -/
def signOf (negative : Bool) : Sign := if negative then .negative else .positive

/-- A reading in the terms of the arithmetic, which sets the zeros apart. -/
def Reading.unpacked : Reading → UnpackedFloat
  | .nan => .notANumber
  | .infinite negative => .infinity (signOf negative)
  | .finite negative m e =>
    if h : m = 0 then .zero (signOf negative)
    else .finite (signOf negative) m e (Nat.pos_of_ne_zero h)

/-- A reading without mantissa is a zero. -/
theorem unpacked_zero {m : Nat} (negative : Bool) (e : Int) (h : m = 0) :
    (Reading.finite negative m e).unpacked = .zero (signOf negative) := dif_pos h

/-- Any other finite reading keeps its mantissa and its exponent. -/
theorem unpacked_finite {m : Nat} (negative : Bool) (e : Int) (h : m ≠ 0) :
    (Reading.finite negative m e).unpacked =
      .finite (signOf negative) m e (Nat.pos_of_ne_zero h) := dif_neg h

/-- Finite parts agree if their mantissas and exponents do. -/
theorem finite_congr {s : Sign} {m n : Nat} {e f : Int} (hm : 0 < m) (hn : 0 < n) (hmn : m = n)
    (hef : e = f) : UnpackedFloat.finite s m e hm = .finite s n f hn := by
  subst hmn
  subst hef
  rfl

section Fields

variable (b : BitVec Format.binary64.numBits)

/-- The mantissa field is made of the low 52 bits. -/
theorem toNat_unpackMantissa : (unpackMantissa b).toNat = b.toNat % hiddenBit := by
  simp [unpackMantissa, BitVec.extractLsb_toNat, hiddenBit]

/-- The exponent field is made of the eleven bits above. -/
theorem toNat_unpackExponent :
    (unpackExponent b).toNat = b.toNat / hiddenBit % (topExponent + 1) := by
  simp [unpackExponent, BitVec.extractLsb_toNat, Nat.shiftRight_eq_div_pow, hiddenBit, topExponent]

/-- The mantissa field is zero just if its number is. -/
theorem unpackMantissa_eq_zero_iff : unpackMantissa b = 0#_ ↔ b.toNat % hiddenBit = 0 := by
  rw [← toNat_unpackMantissa, ← BitVec.toNat_inj]
  rfl

/-- The exponent field is zero just if its number is. -/
theorem unpackExponent_eq_zero_iff :
    unpackExponent b = 0#_ ↔ b.toNat / hiddenBit % (topExponent + 1) = 0 := by
  rw [← toNat_unpackExponent, ← BitVec.toNat_inj]
  rfl

/-- The exponent field has all bits set just if its number is the top exponent. -/
theorem unpackExponent_eq_neg_one_iff :
    unpackExponent b = -1#_ ↔ b.toNat / hiddenBit % (topExponent + 1) = topExponent := by
  rw [← toNat_unpackExponent, ← BitVec.toNat_inj]
  rfl

/-- The sign is that of the highest bit. -/
theorem sign_unpackSign :
    Sign.ofBitVec (unpackSign b) = signOf (decide (signBit ≤ b.toNat)) := by
  have hb : b.toNat < 2 ^ 64 := b.isLt
  have hs : (unpackSign b).toNat = b.toNat / 2 ^ 63 % 2 := by
    have htop : (unpackSign b).toNat = (b.extractLsb 63 63).toNat := rfl
    rw [htop, BitVec.extractLsb_toNat, Nat.shiftRight_eq_div_pow]
  have hz : unpackSign b = 0#1 ↔ b.toNat / 2 ^ 63 % 2 = 0 := by
    rw [← hs, ← BitVec.toNat_inj]
    rfl
  unfold Sign.ofBitVec signOf signBit
  by_cases h : 0x8000000000000000 ≤ b.toNat
  · rw [if_neg (by rw [hz]; omega), if_pos (decide_eq_true h)]
  · rw [if_pos (by rw [hz]; omega), if_neg (by simpa using h)]

/-- Bits with a field of the exponent that is neither zero nor the top have the hidden bit in
front of the fraction. -/
theorem unpack_normal (htop : b.toNat / hiddenBit % (topExponent + 1) ≠ topExponent)
    (hzero : b.toNat / hiddenBit % (topExponent + 1) ≠ 0) :
    UnpackedFloat.unpack .binary64 b = (Reading.finite (decide (signBit ≤ b.toNat))
      (hiddenBit + b.toNat % hiddenBit)
      ((b.toNat / hiddenBit % (topExponent + 1) : Nat) - 1075)).unpacked := by
  have h0 : hiddenBit + b.toNat % hiddenBit ≠ 0 := by unfold hiddenBit; omega
  have he := toNat_unpackExponent b
  unfold UnpackedFloat.unpack
  dsimp only
  rw [sign_unpackSign b, if_neg (mt (unpackExponent_eq_neg_one_iff b).mp htop),
    if_neg (mt (unpackExponent_eq_zero_iff b).mp hzero), unpacked_finite _ _ h0]
  refine finite_congr _ _ ?_ ?_
  · change ((1#1 : BitVec 1) ++ unpackMantissa b).toNat = _
    rw [BitVec.toNat_append, ← Nat.shiftLeft_add_eq_or_of_lt (unpackMantissa b).isLt,
      toNat_unpackMantissa]
    rfl
  · change ((unpackExponent b).toNat : Int) - (1023 + 52) = _
    omega

end Fields

/-- The arithmetic takes a double apart just as `decode` does; the unit of a subnormal double is
that of the exponent field one. -/
theorem unpack_eq_unpacked (x : Float) : x.toModel.unpack = (decode x).unpacked := by
  have hbits : x.toBits.toNat = x.toModel.toBits.toBitVec.toNat := rfl
  unfold Float.Model.unpack decode
  rw [hbits]
  obtain ⟨b, hb⟩ : ∃ b : BitVec Format.binary64.numBits, x.toModel.toBits.toBitVec = b := ⟨_, rfl⟩
  rw [hb]
  dsimp only
  by_cases htop : b.toNat / hiddenBit % (topExponent + 1) = topExponent
  · unfold UnpackedFloat.unpack
    dsimp only
    rw [sign_unpackSign b, if_pos ((unpackExponent_eq_neg_one_iff b).mpr htop), if_pos htop]
    by_cases hf : b.toNat % hiddenBit = 0
    · rw [if_pos ((unpackMantissa_eq_zero_iff b).mpr hf), if_pos hf]
      rfl
    · rw [if_neg (mt (unpackMantissa_eq_zero_iff b).mp hf), if_neg hf]
      rfl
  · rw [if_neg htop]
    by_cases hz : b.toNat / hiddenBit % (topExponent + 1) = 0
    · unfold UnpackedFloat.unpack
      dsimp only
      rw [sign_unpackSign b, if_neg (mt (unpackExponent_eq_neg_one_iff b).mp htop),
        if_pos ((unpackExponent_eq_zero_iff b).mpr hz), if_pos hz]
      by_cases hf : b.toNat % hiddenBit = 0
      · rw [dif_pos ((unpackMantissa_eq_zero_iff b).mpr hf)]
        exact (unpacked_zero _ _ hf).symm
      · rw [dif_neg (mt (unpackMantissa_eq_zero_iff b).mp hf), unpacked_finite _ _ hf]
        have he : (unpackExponent b).toNat = 0 := (toNat_unpackExponent b).trans hz
        refine finite_congr _ _ (toNat_unpackMantissa b) ?_
        change ((unpackExponent b).toNat : Int) - (1023 + 52) + 1 = -1074
        omega
    · rw [if_neg hz]
      exact unpack_normal b htop hz

/-! ## the order of doubles -/

/-- What the order of doubles goes by: the sign, then the exponent and the
mantissa, both turned round for negative doubles. -/
def orderKey : UnpackedFloat → ℤ ×ₗ ℤ ×ₗ ℤ
  | .infinity .negative => toLex (-2, toLex (0, 0))
  | .finite .negative m e _ => toLex (-1, toLex (-e, -m))
  | .notANumber | .zero _ => toLex (0, toLex (0, 0))
  | .finite .positive m e _ => toLex (1, toLex (e, m))
  | .infinity .positive => toLex (2, toLex (0, 0))

/-- Integers are compared the other way round when they are negated. -/
theorem compare_neg_neg (m n : ℤ) : compare (-m) (-n) = compare n m := by
  simp only [compare, compareOfLessAndEq]
  grind

/-- Natural numbers are compared as integers. -/
theorem compare_natCast (m n : ℕ) : compare (m : ℤ) (n : ℤ) = compare m n := by
  simp only [compare, compareOfLessAndEq]
  grind

/-- **Order by keys**: doubles are compared by their keys, unless one is NaN. -/
theorem compare_eq (a b : UnpackedFloat) :
    a.compare b =
      if a.isNaN || b.isNaN then none else some (compare (orderKey a) (orderKey b)) := by
  rcases a with ⟨_ | _⟩ | _ | _ | ⟨⟨_ | _⟩, m, e, _⟩ <;>
    rcases b with ⟨_ | _⟩ | _ | _ | ⟨⟨_ | _⟩, n, f, _⟩ <;> try rfl
  case finite.negative.finite.negative =>
      show some ((compare e f).then (compare m n)).swap =
        some (compare (toLex (-1, toLex (-e, -(m : ℤ)))) (toLex (-1, toLex (-f, -(n : ℤ)))))
      simp only [Prod.Lex.compare_def, compareLex, compareOn, ofLex_toLex, compare_neg_neg,
        compare_natCast]
      rw [Ordering.swap_then, ← Std.OrientedCmp.eq_swap, ← Std.OrientedCmp.eq_swap]
      rfl
  case finite.positive.finite.positive =>
      show some ((compare e f).then (compare m n)) =
        some (compare (toLex (1, toLex (e, (m : ℤ)))) (toLex (1, toLex (f, (n : ℤ)))))
      simp only [Prod.Lex.compare_def, compareLex, compareOn, ofLex_toLex, compare_natCast]
      rfl

/-- A double is at or below another just if neither is NaN and their keys are in order. -/
theorem le_iff (x y : Float) :
    x ≤ y ↔ x.toModel.unpack.isNaN = false ∧ y.toModel.unpack.isNaN = false ∧
      orderKey x.toModel.unpack ≤ orderKey y.toModel.unpack := by
  have h : x ≤ y ↔ x.toModel.unpack.le y.toModel.unpack = true := decide_eq_true_iff
  rw [h]
  unfold UnpackedFloat.le
  rw [compare_eq]
  cases x.toModel.unpack.isNaN <;> cases y.toModel.unpack.isNaN <;>
    simp [Ordering.isLE_iff_ne_gt, compare_le_iff_le]

/-- A double is below another just if neither is NaN and their keys are strictly in order. -/
theorem lt_iff (x y : Float) :
    x < y ↔ x.toModel.unpack.isNaN = false ∧ y.toModel.unpack.isNaN = false ∧
      orderKey x.toModel.unpack < orderKey y.toModel.unpack := by
  have h : x < y ↔ x.toModel.unpack.lt y.toModel.unpack = true := decide_eq_true_iff
  rw [h]
  unfold UnpackedFloat.lt
  rw [compare_eq]
  cases x.toModel.unpack.isNaN <;> cases y.toModel.unpack.isNaN <;> simp [compare_lt_iff_lt]

/-- Numbers among the doubles are those that are not NaN. -/
theorem isNumber_iff (x : Float) : Timescale.IsNumber x ↔ x.toModel.unpack.isNaN = false := by
  have h : Timescale.IsNumber x ↔ x ≤ x := Iff.rfl
  rw [h, le_iff]
  simp

/-! ## sums -/

/-- Packed parts are NaN only if the exponent field has all bits set and the
mantissa field has some. -/
theorem isNaN_unpack_packComponents (s : Sign) (e : BitVec 11) (m : BitVec 52)
    (h : e = -1#11 → m = 0#52) :
    (unpack .binary64 (packComponents .binary64 s e m)).isNaN = false := by
  let b := packComponents .binary64 s e m
  have hexponent : unpackExponent b = e := unpackExponent_packComponents
  have hmantissa : unpackMantissa b = m := unpackMantissa_packComponents
  show (unpack .binary64 b).isNaN = false
  unfold unpack
  by_cases htop : unpackExponent b = -1#_
  · have hzero : unpackMantissa b = 0#_ := hmantissa.trans (h (hexponent.symm.trans htop))
    rw [if_pos htop, if_pos hzero]
    rfl
  · rw [if_neg htop]
    by_cases hsub : unpackExponent b = 0#_
    · rw [if_pos hsub]
      by_cases hzero : unpackMantissa b = 0#_
      · rw [dif_pos hzero]
        rfl
      · rw [dif_neg hzero]
        rfl
    · rw [if_neg hsub]
      rfl

/-- Packing does not lead to NaN. -/
theorem isNaN_unpack_pack (u : UnpackedFloat) (h : u.isNaN = false) :
    (unpack .binary64 (pack .binary64 u)).isNaN = false := by
  fun_cases pack .binary64 u with
  | case1 => cases h
  | case2 s => exact isNaN_unpack_packComponents s _ _ fun _ => rfl
  | case3 s => exact isNaN_unpack_packComponents s _ _ fun _ => rfl
  | case4 s => exact isNaN_unpack_packComponents s _ _ fun _ => rfl
  | case5 s m e hm log biased hmax _ =>
      have hb : biased + 1 < 2 ^ 11 := Nat.lt_of_not_le hmax
      refine isNaN_unpack_packComponents s _ _ fun he => ?_
      have : biased % 2 ^ 11 = 2047 := congrArg BitVec.toNat he
      omega
  | case6 s => exact isNaN_unpack_packComponents s _ _ fun he => absurd he (by decide)

/-- Neither does a choice between parts that are not NaN. -/
theorem isNaN_dite {p : Prop} [Decidable p] {u : p → UnpackedFloat} {v : ¬p → UnpackedFloat}
    (hu : ∀ h, (u h).isNaN = false) (hv : ∀ h, (v h).isNaN = false) :
    (if h : p then u h else v h).isNaN = false := by
  by_cases h : p
  · rw [dif_pos h]
    exact hu h
  · rw [dif_neg h]
    exact hv h

/-- Rounding does not lead to NaN. -/
theorem isNaN_normalize (spec : Format) (m e : Int) (s : Sign) :
    (UnpackedFloat.normalize spec m e s).isNaN = false := by
  unfold UnpackedFloat.normalize
  cases compare m 0 with
  | lt => exact isNaN_dite (fun _ => rfl) (fun _ => rfl)
  | eq => rfl
  | gt => exact isNaN_dite (fun _ => rfl) (fun _ => rfl)

/-- Adding something finite does not lead to NaN. -/
theorem isNaN_add {u v : UnpackedFloat} (hu : u.isNaN = false) (hv : v.isFinite = true) :
    (add .binary64 u v).isNaN = false := by
  cases v with
  | infinity s => contradiction
  | notANumber => contradiction
  | zero s =>
      cases u with
      | infinity t => rfl
      | notANumber => contradiction
      | zero t => unfold add; dsimp only; split <;> rfl
      | finite t m e hm => rfl
  | finite s n f hn =>
      cases u with
      | infinity t => rfl
      | notANumber => contradiction
      | zero t => rfl
      | finite t m e hm => exact isNaN_normalize _ _ _ _

/-- A sum with NaN is NaN, whatever is added to it. -/
theorem isNaN_of_add {a b : Float} (h : (a + b).toModel.unpack.isNaN = false) :
    a.toModel.unpack.isNaN = false := by
  have hsum : (a + b).toModel.unpack =
      unpack .binary64 (pack .binary64 (add .binary64 a.toModel.unpack b.toModel.unpack)) := rfl
  cases ha : a.toModel.unpack with
  | notANumber =>
      have hadd : add .binary64 notANumber b.toModel.unpack = notANumber := by
        cases b.toModel.unpack <;> rfl
      have hnan : (unpack .binary64 (pack .binary64 notANumber)).isNaN = true := by decide
      rw [hsum, ha, hadd, hnan] at h
      cases h
  | infinity s => rfl
  | zero s => rfl
  | finite s m e hm => rfl

end Binary64

open Binary64 in
/-- Doubles are in order but for NaN. -/
instance : Timescale.Ordered Float where
  isNumber_left h := (isNumber_iff _).mpr ((le_iff _ _).mp h).1
  isNumber_right h := (isNumber_iff _).mpr ((le_iff _ _).mp h).2.1
  le_trans {a b c} hab hbc := by
    obtain ⟨ha, _, hab⟩ := (le_iff a b).mp hab
    obtain ⟨_, hc, hbc⟩ := (le_iff b c).mp hbc
    exact (le_iff a c).mpr ⟨ha, hc, le_trans hab hbc⟩
  le_total {a b} ha hb := by
    rw [isNumber_iff] at ha hb
    obtain h | h := le_total (orderKey a.toModel.unpack) (orderKey b.toModel.unpack)
    · exact .inl ((le_iff a b).mpr ⟨ha, hb, h⟩)
    · exact .inr ((le_iff b a).mpr ⟨hb, ha, h⟩)
  lt_iff {a b} := by
    rw [show a < b ↔ _ from Binary64.lt_iff a b, show a ≤ b ↔ _ from le_iff a b,
      show b ≤ a ↔ _ from le_iff b a, lt_iff_le_not_ge]
    grind
  isNumber_zero := (isNumber_iff _).mpr rfl
  isNumber_add_one {a} ha := by
    rw [isNumber_iff] at ha ⊢
    exact isNaN_unpack_pack _ (isNaN_add ha (by decide))
  isNumber_of_add {a b} h := by
    rw [isNumber_iff] at h ⊢
    exact isNaN_of_add h

/-! ## signs -/

namespace Binary64

/-- A finite double with the sign bit set is below zero, unless it is zero. -/
theorem lt_zero_of_decode {x : Float} {m : Nat} {e : Int}
    (h : decode x = .finite true m e) (hm : m ≠ 0) : x < 0 := by
  have hx : x.toModel.unpack = .finite .negative m e (Nat.pos_of_ne_zero hm) := by
    rw [unpack_eq_unpacked, h, unpacked_finite _ _ hm]
    rfl
  rw [lt_iff, hx]
  refine ⟨rfl, rfl, ?_⟩
  rw [Prod.Lex.lt_iff]
  exact .inl (show (-1 : ℤ) < 0 by decide)

/-- A finite double that is not below zero stands for no negative number. -/
theorem value_nonneg {x : Float} {r : Rat} (h : ¬x < 0)
    (hr : value? x = some r) : 0 ≤ r := by
  unfold value? at hr
  split at hr
  · next negative m e hx =>
      rw [Option.some.injEq] at hr
      rw [← hr]
      apply Rat.mkRat_nonneg
      cases negative with
      | false => exact Int.natCast_nonneg _
      | true =>
          have hm : m = 0 := by
            by_contra hm
            exact h (lt_zero_of_decode hx hm)
          simp [ratio, Fraction.scaled, hm]
  · cases hr

end Binary64

/-- A quantity that is not negative stands for no negative number. -/
theorem Quantity.toRat_nonneg {q : Quantity} {r : Rat} (h : q.isNegative = false)
    (hr : q.toRat? = some r) : 0 ≤ r := by
  cases q with
  | int n =>
      have hn : ¬n < 0 := of_decide_eq_false h
      rw [← Option.some.inj hr]
      exact Rat.intCast_nonneg.mpr (Int.not_lt.mp hn)
  | double x => exact Binary64.value_nonneg (of_decide_eq_false h) hr

end SharedLink
