import SharedLink.Proofs.Arithmetic
import SharedLink.Proofs.Sums

/-!
# SharedLink.Proofs.Signs

The signs of products, quotients and converted quantities.

A product or a quotient is rounded with a sign that is known beforehand, and
neither rounding nor packing changes it.  An integer is converted by putting its
bits together, the sign in front, and a positive one has bits in the field of the
exponent.

* `isNegative_mul`, `isNegative_div` — no product or quotient is negative without reason;
* `ofRatio_nonneg`, `ofRatio_pos` — nor is a converted fraction, and it is zero only if it should;
* `Timescale.Arithmetic` — both kinds of times keep the laws that planning relies on.
-/

namespace SharedLink

namespace Binary64

open Float.Model (UnpackedFloat Format)
open Float.Model.UnpackedFloat

/-! ## signs of parts -/

/-- Parts below zero. -/
def isNegative : UnpackedFloat → Bool
  | .infinity .negative | .finite .negative _ _ _ => true
  | _ => false

/-- Parts at or below zero. -/
def isAtMostZero : UnpackedFloat → Bool
  | .infinity .negative | .finite .negative _ _ _ | .zero _ => true
  | _ => false

/-- A double is below zero just if its parts are. -/
theorem lt_zero_iff_isNegative {x : Float} : x < 0 ↔ isNegative x.toModel.unpack = true := by
  have hc := isCanonical x
  rw [lt_zero_iff]
  cases hx : x.toModel.unpack with
  | notANumber => exact iff_of_false (Int.lt_irrefl 0) Bool.false_ne_true
  | zero s => exact iff_of_false (Int.lt_irrefl 0) Bool.false_ne_true
  | infinity s =>
      have hlimit := limit_pos
      cases s with
      | negative => exact iff_of_true (by simp only [units, Sign.apply]; omega) rfl
      | positive => exact iff_of_false (by simp only [units, Sign.apply]; omega) Bool.false_ne_true
  | finite s m e hm =>
      have hpos : 0 < m * 2 ^ (e + 1074).toNat := Nat.mul_pos hm (Nat.two_pow_pos _)
      cases s with
      | negative => exact iff_of_true (by simp only [units, Sign.apply]; omega) rfl
      | positive => exact iff_of_false (by simp only [units, Sign.apply]; omega) Bool.false_ne_true

/-- A double is at or below zero just if its parts are. -/
theorem le_zero_iff_isAtMostZero {x : Float} :
    x ≤ 0 ↔ isAtMostZero x.toModel.unpack = true := by
  have hzero : (0 : Float).toModel.unpack = .zero .positive := rfl
  rw [le_iff, hzero]
  rcases x.toModel.unpack with ⟨_ | _⟩ | _ | ⟨_ | _⟩ | ⟨_ | _, m, e, hm⟩ <;>
    simp [isAtMostZero, orderKey, isNaN, Prod.Lex.le_iff]

/-! ## packing, products and quotients -/

/-- What is unpacked without a minus sign is not negative. -/
theorem isNegative_unpack {b : BitVec Format.binary64.numBits}
    (h : Sign.ofBitVec (unpackSign b) = .positive) : isNegative (unpack .binary64 b) = false := by
  unfold unpack
  dsimp only
  rw [h]
  split
  · split <;> rfl
  · split
    · split <;> rfl
    · rfl

/-- Nor is it zero, if there are bits in the field of the exponent. -/
theorem isAtMostZero_unpack {b : BitVec Format.binary64.numBits}
    (h : Sign.ofBitVec (unpackSign b) = .positive) (he : unpackExponent b ≠ 0#_) :
    isAtMostZero (unpack .binary64 b) = false := by
  unfold unpack
  dsimp only
  rw [h]
  split
  · split <;> rfl
  · rfl

/-- Packing makes nothing negative. -/
theorem isNegative_unpack_pack {u : UnpackedFloat} (h : isNegative u = false) :
    isNegative (unpack .binary64 (pack .binary64 u)) = false := by
  rcases u with ⟨_ | _⟩ | _ | ⟨_ | _⟩ | ⟨_ | _, m, e, hm⟩
  case infinity.negative => cases h
  case finite.negative => cases h
  case finite.positive =>
      apply isNegative_unpack
      unfold pack
      dsimp only
      split
      · exact sign_packComponents _ _ _
      · split <;> exact sign_packComponents _ _ _
  all_goals rfl

/-- Neither does rounding. -/
theorem isNegative_round {m : Nat} {e : Int} {a : Accuracy} :
    isNegative (roundWithAccuracy .binary64 .positive m e a) = false := by
  unfold roundWithAccuracy
  dsimp only
  split <;> rfl

/-- A product of parts that are not negative is not negative. -/
theorem isNegative_mul {u v : UnpackedFloat} (hu : isNegative u = false)
    (hv : isNegative v = false) : isNegative (mul .binary64 u v) = false := by
  rcases u with ⟨_ | _⟩ | _ | ⟨_ | _⟩ | ⟨_ | _, m, e, hm⟩ <;>
    rcases v with ⟨_ | _⟩ | _ | ⟨_ | _⟩ | ⟨_ | _, n, f, hn⟩ <;>
    first | rfl | cases hu; done | cases hv; done | exact isNegative_round

/-- Nor is a quotient, if the divisor is not zero either. -/
theorem isNegative_div {u v : UnpackedFloat} (hu : isNegative u = false)
    (hv : isAtMostZero v = false) : isNegative (div .binary64 u v) = false := by
  rcases u with ⟨_ | _⟩ | _ | ⟨_ | _⟩ | ⟨_ | _, m, e, hm⟩ <;>
    rcases v with ⟨_ | _⟩ | _ | ⟨_ | _⟩ | ⟨_ | _, n, f, hn⟩ <;>
    first | rfl | cases hu; done | cases hv; done | exact isNegative_round

theorem mul_nonneg {a b : Float} (ha : ¬a < 0) (hb : ¬b < 0) : ¬a * b < 0 := by
  rw [lt_zero_iff_isNegative, Bool.not_eq_true] at *
  exact isNegative_unpack_pack (isNegative_mul ha hb)

theorem div_nonneg {a b : Float} (ha : ¬a < 0) (hb : ¬b ≤ 0) : ¬a / b < 0 := by
  rw [lt_zero_iff_isNegative, Bool.not_eq_true] at *
  rw [le_zero_iff_isAtMostZero, Bool.not_eq_true] at hb
  exact isNegative_unpack_pack (isNegative_div ha hb)

/-! ## conversions -/

/-- The parts of a double that was put together from bits are those of the bits. -/
theorem unpack_ofBits (b : UInt64) :
    (Float.ofBits b).toModel.unpack = unpack .binary64 b.toBitVec :=
  unpack_pack (isCanonical_unpack b.toBitVec)

/-- Bits below the sign bit make no negative double. -/
theorem ofBits_nonneg {n : Nat} (h : n < signBit) : ¬Float.ofBits (UInt64.ofNat n) < 0 := by
  have hbits : (UInt64.ofNat n).toBitVec.toNat = n := by
    change n % 2 ^ 64 = n
    unfold signBit at h
    omega
  rw [lt_zero_iff_isNegative, Bool.not_eq_true, unpack_ofBits]
  apply isNegative_unpack
  rw [sign_unpackSign, hbits, decide_eq_false (Nat.not_le.mpr h)]
  rfl

/-- If they reach into the field of the exponent, they do not make zero either. -/
theorem ofBits_pos {n : Nat} (hlow : hiddenBit ≤ n) (h : n < signBit) :
    ¬Float.ofBits (UInt64.ofNat n) ≤ 0 := by
  have hbits : (UInt64.ofNat n).toBitVec.toNat = n := by
    change n % 2 ^ 64 = n
    unfold signBit at h
    omega
  rw [le_zero_iff_isAtMostZero, Bool.not_eq_true, unpack_ofBits]
  apply isAtMostZero_unpack
  · rw [sign_unpackSign, hbits, decide_eq_false (Nat.not_le.mpr h)]
    rfl
  · rw [ne_eq, unpackExponent_eq_zero_iff, hbits]
    unfold hiddenBit at hlow ⊢
    unfold signBit at h
    unfold topExponent
    omega

/-- A fraction that is converted without a sign is not below zero. -/
theorem ofRatio_nonneg {num den : Nat} {x : Float} (h : ofRatio? false num den = some x) :
    ¬x < 0 := by
  unfold ofRatio? at h
  dsimp only at h
  split at h
  · rw [← Option.some.inj h]
    exact ofBits_nonneg (by decide)
  · split at h
    · next hbits =>
        rw [← Option.some.inj h]
        refine ofBits_nonneg (Nat.lt_of_lt_of_le ?_ (by decide : topExponent * hiddenBit ≤ signBit))
        rw [if_neg Bool.false_ne_true, Nat.zero_add]
        exact hbits
    · cases h

/-- A positive natural number does not become zero. -/
theorem ofRatio_pos {num : Nat} {x : Float} (hnum : num ≠ 0)
    (h : ofRatio? false num 1 = some x) : ¬x ≤ 0 := by
  have hlog : -1 ≤ floorLog2 num 1 := by
    unfold floorLog2
    dsimp only
    have hone : (1 : Nat).log2 = 0 := by decide
    rw [hone]
    split <;> omega
  unfold ofRatio? at h
  dsimp only at h
  rw [if_neg hnum] at h
  split at h
  · next hbits =>
      have hfield : 1 ≤ (max (floorLog2 num 1 - 52) (-1074) + 1074).toNat := by omega
      rw [← Option.some.inj h, if_neg Bool.false_ne_true, Nat.zero_add]
      refine ofBits_pos ?_ (Nat.lt_of_lt_of_le hbits (by decide))
      exact Nat.le_trans (Nat.le_mul_of_pos_left _ hfield) (Nat.le_add_right _ _)
  · cases h

/-- A finite double that is neither negative nor zero stands for a positive number. -/
theorem value_pos {x : Float} {r : Rat} (h : ¬x ≤ 0) (hr : value? x = some r) : 0 < r := by
  rw [le_zero_iff_isAtMostZero, unpack_eq_unpacked] at h
  unfold value? at hr
  split at hr
  · next negative m e hx =>
      rw [hx] at h
      by_cases hm : m = 0
      · rw [unpacked_zero _ _ hm] at h
        exact absurd rfl h
      · cases negative with
        | true =>
            rw [unpacked_finite _ _ hm] at h
            exact absurd rfl h
        | false =>
            have hnum : 0 < m * Nat.pow 2 e.toNat :=
              Nat.mul_pos (Nat.pos_of_ne_zero hm) (Nat.two_pow_pos _)
            have hden : Nat.pow 2 (-e).toNat ≠ 0 := Nat.ne_of_gt (Nat.two_pow_pos _)
            rw [← Option.some.inj hr]
            refine lt_of_le_of_ne (Rat.mkRat_nonneg (Int.natCast_nonneg _) _) fun heq => ?_
            have hzero := (Rat.mkRat_eq_zero hden).mp heq.symm
            exact Nat.ne_of_gt hnum (Int.natCast_eq_zero.mp hzero)
  · cases hr

/-- A quantity that is not negative becomes no negative double. -/
theorem toDouble_nonneg {q : Quantity} {x : Float} (h : q.isNegative = false)
    (hx : q.toDouble? = some x) : ¬x < 0 := by
  cases q with
  | int n =>
      have hx : ofRatio? (decide (n < 0)) n.natAbs 1 = some x := hx
      have hn : decide (n < 0) = false := h
      rw [hn] at hx
      exact ofRatio_nonneg hx
  | double y =>
      rw [← Option.some.inj hx]
      exact of_decide_eq_false h

/-- One that is not zero either does not become zero. -/
theorem toDouble_pos {q : Quantity} {x : Float} (h : q.isAtMostZero = false)
    (hx : q.toDouble? = some x) : ¬x ≤ 0 := by
  cases q with
  | int n =>
      have hn : ¬n ≤ 0 := of_decide_eq_false h
      have hx : ofRatio? (decide (n < 0)) n.natAbs 1 = some x := hx
      rw [decide_eq_false (by omega)] at hx
      exact ofRatio_pos (by omega) hx
  | double y =>
      rw [← Option.some.inj hx]
      exact of_decide_eq_false h

end Binary64

/-- A quantity that is neither negative nor zero stands for a positive number. -/
theorem Quantity.toRat_pos {q : Quantity} {r : Rat} (h : q.isAtMostZero = false)
    (hr : q.toRat? = some r) : 0 < r := by
  cases q with
  | int n =>
      have hn : ¬n ≤ 0 := of_decide_eq_false h
      rw [← Option.some.inj hr]
      exact Rat.intCast_pos.mpr (Int.not_le.mp hn)
  | double x => exact Binary64.value_pos (of_decide_eq_false h) hr

/-! ## the laws of both kinds of times -/

open Binary64 in
/-- Doubles keep the laws of times, though they round. -/
instance : Timescale.Arithmetic Float where
  add_comm := Binary64.add_comm
  add_le_add_right := Binary64.add_le_add_right
  sub_le := Binary64.sub_le
  le_zero_add := Binary64.le_zero_add
  zero_add_eq := Binary64.zero_add_eq
  zero_add_add := Binary64.zero_add_add
  zero_add_zero := by decide +kernel
  zero_add_one := by decide +kernel
  zero_lt_one := by decide +kernel
  zero_le_eight := by decide +kernel
  mul_nonneg := Binary64.mul_nonneg
  div_nonneg := Binary64.div_nonneg
  ofQuantity_nonneg := toDouble_nonneg
  ofQuantity_pos := toDouble_pos

/-- Exact times keep them. -/
instance : Timescale.Arithmetic Rat where
  add_comm := Rat.add_comm
  add_le_add_right h _ _ := Rat.add_le_add_right.mpr h
  sub_le hb _ := sub_le_self _ (not_lt.mp hb)
  le_zero_add _ := (Rat.zero_add _).ge
  zero_add_eq hab hba := congrArg (0 + ·) (Rat.le_antisymm hab hba)
  zero_add_add _ := Rat.zero_add _
  zero_add_zero := Rat.zero_add _
  zero_add_one := Rat.zero_add _
  zero_lt_one := by decide +kernel
  zero_le_eight := by decide +kernel
  mul_nonneg ha hb := not_lt.mpr (Rat.mul_nonneg (not_lt.mp ha) (not_lt.mp hb))
  div_nonneg ha hb := not_lt.mpr (div_nonneg (not_lt.mp ha) (not_le.mp hb).le)
  ofQuantity_nonneg h ht := not_lt.mpr (Quantity.toRat_nonneg h ht)
  ofQuantity_pos h ht := not_le.mpr (Quantity.toRat_pos h ht)

end SharedLink
