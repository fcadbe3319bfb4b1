import Mathlib
import SharedLink.Proofs.Doubles
import SharedLink.Proofs.Rounding

/-!
# SharedLink.Proofs.Packing

Where doubles stand.

Every double stands somewhere on a line of integers, counted in units of the
smallest double, with the infinities at both ends.  What is packed into a double
is cut off at these ends and is otherwise kept, and doubles are in the order of
their places.

* `unpack_pack` — the parts of a double are packed without loss;
* `units_normalize` — what is packed after rounding stands where it was rounded to;
* `orderKey_le_iff` — the keys of doubles are in the order of their places.
-/

namespace SharedLink

namespace Binary64

open Float.Model (UnpackedFloat Format totalExponent)
open Float.Model.UnpackedFloat

/-! ## packing -/

/-- The parts of a double. -/
def IsCanonical : UnpackedFloat → Prop
  | .finite _ m e _ => Fits m e ∧ e ≤ 971
  | _ => True

/-- Only parts of a double are unpacked. -/
theorem isCanonical_unpack (b : BitVec Format.binary64.numBits) :
    IsCanonical (unpack .binary64 b) := by
  have hm : (unpackMantissa b).toNat < 2 ^ 52 := (unpackMantissa b).isLt
  have he : (unpackExponent b).toNat < 2 ^ 11 := (unpackExponent b).isLt
  unfold unpack
  by_cases htop : unpackExponent b = -1#_
  · rw [if_pos htop]
    split <;> trivial
  · rw [if_neg htop]
    have htop' : (unpackExponent b).toNat ≠ 2047 := fun h => htop (BitVec.eq_of_toNat_eq h)
    by_cases hsub : unpackExponent b = 0#_
    · rw [if_pos hsub]
      have hsub' : (unpackExponent b).toNat = 0 := congrArg BitVec.toNat hsub
      split
      · trivial
      · have hexp : ((unpackExponent b).toNat : Int) - (1023 + 52) + 1 = -1074 := by omega
        refine ⟨⟨?_, ?_, .inr hexp⟩, ?_⟩
        · exact Nat.lt_trans hm (by decide)
        · exact hexp.ge
        · exact hexp.le.trans (by decide)
    · rw [if_neg hsub]
      have hsub' : (unpackExponent b).toNat ≠ 0 := fun h => hsub (BitVec.eq_of_toNat_eq h)
      have hmantissa : ((1#1 : BitVec 1) ++ unpackMantissa b).toNat =
          2 ^ 52 + (unpackMantissa b).toNat := by
        rw [BitVec.toNat_append, ← Nat.shiftLeft_add_eq_or_of_lt (unpackMantissa b).isLt]
        rfl
      refine ⟨⟨?_, ?_, .inl ?_⟩, ?_⟩
      · rw [hmantissa]
        omega
      · change -1074 ≤ ((unpackExponent b).toNat : Int) - (1023 + 52)
        omega
      · rw [hmantissa]
        exact Nat.le_add_right _ _
      · change ((unpackExponent b).toNat : Int) - (1023 + 52) ≤ 971
        omega

/-- Packed parts keep their sign. -/
theorem sign_packComponents (s : Sign) (e : BitVec 11) (m : BitVec 52) :
    Sign.ofBitVec (unpackSign (packComponents .binary64 s e m)) = s := by
  rw [unpackSign_packComponents, Sign.ofBitVec_toBitVec]

/-- The fields of a normal double are unpacked with the hidden bit. -/
theorem unpack_packComponents_normal (s : Sign) {e : BitVec 11} (m : BitVec 52)
    (htop : e.toNat ≠ 2047) (hsub : e.toNat ≠ 0) :
    unpack .binary64 (packComponents .binary64 s e m) =
      .finite s (2 ^ 52 + m.toNat) ((e.toNat : Int) - 1075) (Nat.add_pos_left (by decide) _) := by
  obtain ⟨b, hb⟩ : ∃ b, packComponents .binary64 s e m = b := ⟨_, rfl⟩
  have hexponent : unpackExponent b = e := hb ▸ unpackExponent_packComponents
  have hmantissa : unpackMantissa b = m := hb ▸ unpackMantissa_packComponents
  have hsign : Sign.ofBitVec (unpackSign b) = s := hb ▸ sign_packComponents s e m
  have htop' : ¬unpackExponent b = -1#_ := fun h => htop (congrArg BitVec.toNat (hexponent ▸ h))
  have hsub' : ¬unpackExponent b = 0#_ := fun h => hsub (congrArg BitVec.toNat (hexponent ▸ h))
  rw [hb]
  unfold unpack
  dsimp only
  rw [if_neg htop', if_neg hsub', hsign]
  refine finite_congr _ _ ?_ ?_
  · rw [BitVec.toNat_append, ← Nat.shiftLeft_add_eq_or_of_lt (unpackMantissa b).isLt, hmantissa]
    rfl
  · rw [hexponent]
    change (e.toNat : Int) - (1023 + 52) = _
    omega

/-- Those of a subnormal double without. -/
theorem unpack_packComponents_subnormal (s : Sign) {m : BitVec 52} (hm : 0 < m.toNat) :
    unpack .binary64 (packComponents .binary64 s 0#11 m) = .finite s m.toNat (-1074) hm := by
  obtain ⟨b, hb⟩ : ∃ b, packComponents .binary64 s 0#11 m = b := ⟨_, rfl⟩
  have hexponent : unpackExponent b = 0#11 := hb ▸ unpackExponent_packComponents
  have hmantissa : unpackMantissa b = m := hb ▸ unpackMantissa_packComponents
  have hsign : Sign.ofBitVec (unpackSign b) = s := hb ▸ sign_packComponents s 0#11 m
  have htop : ¬unpackExponent b = -1#_ := by
    rw [hexponent]
    decide
  have hzero : ¬unpackMantissa b = 0#_ := by
    rw [hmantissa]
    rintro rfl
    exact absurd hm (by decide)
  rw [hb]
  unfold unpack
  dsimp only
  rw [if_neg htop, if_pos hexponent, dif_neg hzero, hsign]
  refine finite_congr _ _ (congrArg BitVec.toNat hmantissa) ?_
  rw [hexponent]
  rfl

/-- Beyond the largest exponent there are only the infinities. -/
theorem pack_eq_infinity (s : Sign) {m : Nat} {e : Int} (hm : 0 < m) (h : ¬e ≤ 971) :
    pack .binary64 (.finite s m e hm) = pack .binary64 (.infinity s) := by
  have hmany : 2 ^ 11 ≤ (e + (1023 : Nat) + (52 : Nat)).toNat + 1 := by omega
  change pack .binary64 (.finite s m e hm) = packedInfinity .binary64 s
  unfold pack
  change (if 2 ^ 11 ≤ (e + (1023 : Nat) + (52 : Nat)).toNat + 1 then _ else _) = _
  rw [if_pos hmany]

/-- Parts that fit are packed without loss, unless the exponent is too large. -/
theorem unpack_pack_finite (s : Sign) {m : Nat} {e : Int} (hm : 0 < m) (h : Fits m e) :
    unpack .binary64 (pack .binary64 (.finite s m e hm)) =
      if e ≤ 971 then .finite s m e hm else .infinity s := by
  have hlt := h.mantissa
  have hbottom := h.exponent
  have hbiased : (e + (1023 : Nat) + (52 : Nat)).toNat = (e + 1075).toNat := by omega
  by_cases htop : e ≤ 971
  · have hfew : ¬2 ^ 11 ≤ (e + 1075).toNat + 1 := by omega
    have hpack : pack .binary64 (.finite s m e hm) =
        if m.log2 + 1 = 53 then
          packComponents .binary64 s (.ofNat 11 (e + 1075).toNat) (.ofNat 52 m)
        else packComponents .binary64 s 0#11 (.ofNat 52 m) := by
      unfold pack
      change (if 2 ^ 11 ≤ (e + (1023 : Nat) + (52 : Nat)).toNat + 1 then _ else
        if m.log2 + 1 = 53 then packComponents .binary64 s
          (.ofNat 11 (e + (1023 : Nat) + (52 : Nat)).toNat) (.ofNat 52 m) else _) = _
      rw [hbiased, if_neg hfew]
    rw [hpack, if_pos htop]
    by_cases hnormal : 2 ^ 52 ≤ m
    · have hlog : m.log2 = 52 := (Nat.log2_eq_iff (Nat.ne_of_gt hm)).mpr ⟨hnormal, hlt⟩
      have he : (BitVec.ofNat 11 (e + 1075).toNat).toNat = (e + 1075).toNat := by
        rw [BitVec.toNat_ofNat]
        omega
      have hm' : (BitVec.ofNat 52 m).toNat = m - 2 ^ 52 := by
        rw [BitVec.toNat_ofNat]
        omega
      rw [if_pos (by omega), unpack_packComponents_normal s _ (by omega) (by omega)]
      exact finite_congr _ _ (by omega) (by omega)
    · have hsub : e = -1074 := h.normal.resolve_left hnormal
      have hlog : m.log2 < 52 := (Nat.log2_lt (Nat.ne_of_gt hm)).mpr (by omega)
      have hm' : (BitVec.ofNat 52 m).toNat = m := by
        rw [BitVec.toNat_ofNat]
        omega
      rw [if_neg (by omega), unpack_packComponents_subnormal s (by omega)]
      exact finite_congr _ _ hm' hsub.symm
  · rw [pack_eq_infinity s hm htop, if_neg htop]
    cases s <;> rfl

/-- Packing keeps the parts of a double. -/
theorem unpack_pack {u : UnpackedFloat} (h : IsCanonical u) :
    unpack .binary64 (pack .binary64 u) = u := by
  cases u with
  | infinity s => cases s <;> rfl
  | notANumber => rfl
  | zero s => cases s <;> rfl
  | finite s m e hm => rw [unpack_pack_finite s hm h.1, if_pos h.2]

/-! ## places on the number line -/

/-- The largest exponent, counted from the smallest. -/
def topPlace : Nat := 2045

/-- The first number beyond the doubles, in units of the smallest double. -/
def limit : Nat := 2 ^ 53 * 2 ^ topPlace

/-- Where a double stands, in units of the smallest double; the infinities stand at
the limits. -/
def units : UnpackedFloat → Int
  | .infinity s => s.apply limit
  | .notANumber | .zero _ => 0
  | .finite s m e _ => s.apply ((m * 2 ^ (e + 1074).toNat : Nat) : Int)

/-- Nothing stands beyond the limits. -/
def clamp (z : Int) : Int := max (-limit) (min z limit)

/-- An integer rounded to 53 significant bits. -/
def nearestInt (z : Int) : Int := if z < 0 then -nearest (-z).toNat else nearest z.toNat

theorem clamp_mono {y z : Int} (h : y ≤ z) : clamp y ≤ clamp z := by
  unfold clamp
  omega

theorem nearestInt_mono {y z : Int} (h : y ≤ z) : nearestInt y ≤ nearestInt z := by
  unfold nearestInt
  split
  · split
    · have := nearest_mono (show (-z).toNat ≤ (-y).toNat by omega)
      omega
    · omega
  · split
    · omega
    · have := nearest_mono (show y.toNat ≤ z.toNat by omega)
      omega

theorem nearestInt_apply (s : Sign) (n : Nat) : nearestInt (s.apply n) = s.apply (nearest n) := by
  unfold nearestInt
  cases s with
  | positive =>
      have : ¬(n : Int) < 0 := by omega
      simp [Sign.apply, this]
  | negative =>
      by_cases h : n = 0
      · subst h
        rfl
      · have : -(n : Int) < 0 := by omega
        simp only [Sign.apply, if_pos this, Int.neg_neg, Int.toNat_natCast]

theorem clamp_apply (s : Sign) (n : Nat) : clamp (s.apply n) = s.apply (min n limit : Nat) := by
  unfold clamp
  cases s <;> simp only [Sign.apply] <;> omega

theorem Fits.lt_limit {m : Nat} {e : Int} (h : Fits m e) (he : e ≤ 971) :
    m * 2 ^ (e + 1074).toNat < limit := by
  have hplace : (e + 1074).toNat ≤ topPlace := by unfold topPlace; omega
  exact Nat.mul_lt_mul_of_lt_of_le h.mantissa (Nat.pow_le_pow_right (by decide) hplace)
    (Nat.two_pow_pos _)

theorem Fits.limit_le {m : Nat} {e : Int} (h : Fits m e) (he : ¬e ≤ 971) :
    limit ≤ m * 2 ^ (e + 1074).toNat := by
  have hplace : topPlace + 1 ≤ (e + 1074).toNat := by unfold topPlace; omega
  have hm : 2 ^ 52 ≤ m := h.normal.resolve_right (by omega)
  calc
    limit = 2 ^ 52 * 2 ^ (topPlace + 1) := by unfold limit; rw [Nat.pow_succ 2 topPlace]; omega
    _ ≤ m * 2 ^ (e + 1074).toNat :=
      Nat.mul_le_mul hm (Nat.pow_le_pow_right (by decide) hplace)

/-- Packing cuts off what is beyond the limits. -/
theorem units_unpack_pack (s : Sign) {m : Nat} {e : Int} (hm : 0 < m) (h : Fits m e) :
    units (unpack .binary64 (pack .binary64 (.finite s m e hm))) =
      clamp (s.apply ((m * 2 ^ (e + 1074).toNat : Nat) : Int)) := by
  rw [unpack_pack_finite s hm h, clamp_apply]
  split
  · next he =>
      rw [Nat.min_eq_left (Nat.le_of_lt (h.lt_limit he))]
      rfl
  · next he =>
      rw [Nat.min_eq_right (h.limit_le he)]
      rfl

theorem clamp_nearestInt_zero : clamp (nearestInt 0) = 0 := by
  have hzero : nearestInt 0 = 0 := by decide
  rw [hzero]
  unfold clamp
  omega

/-- **Rounding on the line**: a count of units is rounded to 53 bits and cut off at the limits. -/
theorem units_normalize (z : Int) (k : Nat) :
    units (unpack .binary64 (pack .binary64
      (UnpackedFloat.normalize .binary64 z ((k : Int) - 1074) .positive))) =
        clamp (nearestInt (z * 2 ^ k)) := by
  have hround (s : Sign) {m : Nat} (hm : 0 < m) :
      units (unpack .binary64 (pack .binary64
        (UnpackedFloat.round .binary64 s m ((k : Int) - 1074)))) =
          clamp (nearestInt (s.apply ((m * 2 ^ k : Nat) : Int))) := by
    obtain ⟨m', v, h, hround, hfits, hvalue⟩ := round_eq s hm k
    have hv : ((v : Int) - 1074 + 1074).toNat = v := by omega
    rw [hround, units_unpack_pack s h hfits, hv, hvalue, nearestInt_apply]
  unfold UnpackedFloat.normalize
  cases hz : compare z 0 with
  | lt =>
      rw [compare_lt_iff_lt] at hz
      have hneg : z = -((-z).toNat : Int) := by omega
      dsimp only
      rw [hround .negative (by omega : 0 < (-z).toNat)]
      conv_rhs => rw [hneg]
      simp [Sign.apply]
  | eq =>
      rw [compare_eq_iff_eq] at hz
      have hpacked : unpack .binary64 (pack .binary64 (.zero .positive)) = .zero .positive := rfl
      rw [hz, Int.zero_mul, clamp_nearestInt_zero]
      dsimp only
      rw [hpacked]
      rfl
  | gt =>
      rw [compare_gt_iff_gt] at hz
      have hpos : z = (z.toNat : Int) := by omega
      dsimp only
      rw [hround .positive (by omega : 0 < z.toNat)]
      conv_rhs => rw [hpos]
      simp [Sign.apply]

/-! ## the order -/

/-- Of two mantissas with different exponents the one with the larger exponent is larger. -/
theorem Fits.mul_lt_mul {m n : Nat} {e f : Int} (hm : Fits m e) (hn : Fits n f) (h : e < f) :
    m * 2 ^ (e + 1074).toNat < n * 2 ^ (f + 1074).toNat := by
  have hbottom := hm.exponent
  have hnormal : 2 ^ 52 ≤ n := hn.normal.resolve_right (by omega)
  have hplace : (e + 1074).toNat + 1 ≤ (f + 1074).toNat := by omega
  calc
    m * 2 ^ (e + 1074).toNat < 2 ^ 53 * 2 ^ (e + 1074).toNat :=
      Nat.mul_lt_mul_of_pos_right hm.mantissa (Nat.two_pow_pos _)
    _ = 2 ^ 52 * 2 ^ ((e + 1074).toNat + 1) := by rw [Nat.pow_succ]; omega
    _ ≤ n * 2 ^ (f + 1074).toNat :=
      Nat.mul_le_mul hnormal (Nat.pow_le_pow_right (by decide) hplace)

/-- Mantissas with exponents are in the order of their values. -/
theorem Fits.lex_le_iff {m n : Nat} {e f : Int} (hm : Fits m e) (hn : Fits n f) :
    (e < f ∨ e = f ∧ m ≤ n) ↔ m * 2 ^ (e + 1074).toNat ≤ n * 2 ^ (f + 1074).toNat := by
  constructor
  · rintro (h | ⟨rfl, h⟩)
    · exact Nat.le_of_lt (hm.mul_lt_mul hn h)
    · exact Nat.mul_le_mul_right _ h
  · intro h
    rcases Int.lt_trichotomy e f with hlt | rfl | hgt
    · exact .inl hlt
    · exact .inr ⟨rfl, Nat.le_of_mul_le_mul_right h (Nat.two_pow_pos _)⟩
    · exact absurd h (Nat.not_le.mpr (hn.mul_lt_mul hm hgt))

/-- The first part of a key tells on which side of zero a double stands, and whether at a limit. -/
theorem units_of_orderKey {u : UnpackedFloat} (h : IsCanonical u) :
    ((ofLex (orderKey u)).1 = -2 ∧ units u = -limit) ∨
    ((ofLex (orderKey u)).1 = -1 ∧ -limit < units u ∧ units u < 0) ∨
    ((ofLex (orderKey u)).1 = 0 ∧ units u = 0) ∨
    ((ofLex (orderKey u)).1 = 1 ∧ 0 < units u ∧ units u < limit) ∨
    ((ofLex (orderKey u)).1 = 2 ∧ units u = limit) := by
  rcases u with ⟨_ | _⟩ | _ | _ | ⟨s, m, e, hm⟩
  case infinity.negative => exact .inl ⟨rfl, rfl⟩
  case infinity.positive => exact .inr (.inr (.inr (.inr ⟨rfl, rfl⟩)))
  case notANumber => exact .inr (.inr (.inl ⟨rfl, rfl⟩))
  case zero => exact .inr (.inr (.inl ⟨rfl, rfl⟩))
  case finite =>
      have hpos : 0 < m * 2 ^ (e + 1074).toNat := Nat.mul_pos hm (Nat.two_pow_pos _)
      have hlt : m * 2 ^ (e + 1074).toNat < limit := h.1.lt_limit h.2
      cases s with
      | negative =>
          have hunits : units (.finite .negative m e hm) =
              -((m * 2 ^ (e + 1074).toNat : Nat) : Int) := rfl
          exact .inr (.inl ⟨rfl, by omega, by omega⟩)
      | positive =>
          have hunits : units (.finite .positive m e hm) =
              ((m * 2 ^ (e + 1074).toNat : Nat) : Int) := rfl
          exact .inr (.inr (.inr (.inl ⟨rfl, by omega, by omega⟩)))

/-- Keys that agree in the first part are compared by the other two. -/
theorem toLex_le_toLex {g e f m n : Int} :
    (toLex (g, toLex (e, m)) : ℤ ×ₗ ℤ ×ₗ ℤ) ≤ toLex (g, toLex (f, n)) ↔ e < f ∨ e = f ∧ m ≤ n := by
  simp [Prod.Lex.le_iff]

/-- **Order by places**: two doubles that are not NaN are in the order of their places. -/
theorem orderKey_le_iff {u v : UnpackedFloat} (hu : IsCanonical u) (hv : IsCanonical v) :
    orderKey u ≤ orderKey v ↔ units u ≤ units v := by
  have hlimit : 0 < limit := Nat.mul_pos (by decide) (Nat.two_pow_pos _)
  have hub := units_of_orderKey hu
  have hvb := units_of_orderKey hv
  by_cases hsame : (ofLex (orderKey u)).1 = (ofLex (orderKey v)).1
  · clear hub hvb
    rcases u with ⟨_ | _⟩ | _ | _ | ⟨⟨_ | _⟩, m, e, hm⟩ <;>
      rcases v with ⟨_ | _⟩ | _ | _ | ⟨⟨_ | _⟩, n, f, hn⟩ <;> try (cases hsame; done)
    case pos.finite.negative.finite.negative =>
        have hlex := hv.1.lex_le_iff hu.1
        have hkey : orderKey (.finite .negative m e hm) ≤ orderKey (.finite .negative n f hn) ↔
            -e < -f ∨ -e = -f ∧ -(m : Int) ≤ -n := toLex_le_toLex
        rw [hkey]
        simp only [units, Sign.apply]
        omega
    case pos.finite.positive.finite.positive =>
        have hlex := hu.1.lex_le_iff hv.1
        have hkey : orderKey (.finite .positive m e hm) ≤ orderKey (.finite .positive n f hn) ↔
            e < f ∨ e = f ∧ (m : Int) ≤ n := toLex_le_toLex
        rw [hkey]
        simp only [units, Sign.apply]
        omega
    all_goals exact iff_of_true le_rfl le_rfl
  · rw [Prod.Lex.le_iff]
    omega

end Binary64

end SharedLink
