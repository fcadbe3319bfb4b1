import Mathlib.Tactic.Ring
import SharedLink.Proofs.Packing

/-!
# SharedLink.Proofs.Sums

Sums of doubles.

The sum of two doubles stands where the exact sum does, rounded and cut off at
the ends of the line.  So sums are in the order of their terms, however they
round, and only the sign of a zero can get lost where zero is added.

* `units_added` — where the sum of two finite doubles stands;
* `add_le_add_right` — a sum does not shrink when its first term grows;
* `sub_le` — a difference is not above what is taken away from;
* `zero_add_eq`, `zero_add_add` — what adding zero does;
* `sub_pos_iff` — no difference is rounded to zero.
-/

namespace SharedLink

namespace Binary64

open Float.Model (UnpackedFloat Format totalExponent)
open Float.Model.UnpackedFloat

/-! ## sums -/

/-- The parts of a sum of two doubles. -/
def added (u v : UnpackedFloat) : UnpackedFloat :=
  unpack .binary64 (pack .binary64 (add .binary64 u v))

theorem apply_neg (s : Sign) (n : Int) : (-s).apply n = -s.apply n := by
  cases s with
  | negative => exact (Int.neg_neg n).symm
  | positive => rfl

/-- A difference is the sum with the number of the other sign. -/
theorem sub_unpacked_eq (u v : UnpackedFloat) :
    sub .binary64 u v = add .binary64 u v.neg := by
  rcases u with s | _ | s | ⟨s, m, e, hm⟩ <;> rcases v with t | _ | t | ⟨t, n, f, hn⟩ <;> try rfl
  case finite.finite =>
      unfold sub add UnpackedFloat.neg
      dsimp only
      rw [apply_neg, Int.sub_eq_add_neg]

theorem add_unpacked_comm (u v : UnpackedFloat) : add .binary64 u v = add .binary64 v u := by
  rcases u with s | _ | s | ⟨s, m, e, hm⟩ <;> rcases v with t | _ | t | ⟨t, n, f, hn⟩ <;> try rfl
  case infinity.infinity => cases s <;> cases t <;> rfl
  case zero.zero => cases s <;> cases t <;> rfl
  case finite.finite =>
      unfold add
      dsimp only
      rw [min_comm, Int.add_comm]

/-- A double is its own rounding. -/
theorem clamp_nearestInt_units {u : UnpackedFloat} (h : IsCanonical u) (hfin : u.isFinite = true) :
    clamp (nearestInt (units u)) = units u := by
  cases u with
  | infinity s => cases hfin
  | notANumber => cases hfin
  | zero s => exact clamp_nearestInt_zero
  | finite s m e hm =>
      unfold units
      rw [nearestInt_apply, nearest_mul_two_pow _ h.1.mantissa, clamp_apply,
        Nat.min_eq_left (Nat.le_of_lt (h.1.lt_limit h.2))]

/-- Two doubles brought to the smaller exponent are added there. -/
theorem units_eq_mul {s : Sign} {m a k : Nat} {hm : 0 < m} (h : k ≤ a) :
    units (.finite s m ((a : Int) - 1074) hm) =
      s.apply ((decreaseExponent m ((a : Int) - 1074) ((k : Int) - 1074)).1 : Int) * 2 ^ k := by
  have hplace : ((a : Int) - 1074 + 1074).toNat = k + (a - k) := by omega
  simp only [units, decreaseExponent_eq, hplace, Nat.pow_add]
  cases s <;> simp only [Sign.apply] <;> push_cast <;> ring

/-- **Addition on the line**: the sum of two finite doubles stands at the exact sum, rounded and
cut off at the limits. -/
theorem units_added {u v : UnpackedFloat} (hu : IsCanonical u) (hv : IsCanonical v)
    (hufin : u.isFinite = true) (hvfin : v.isFinite = true) :
    units (added u v) = clamp (nearestInt (units u + units v)) := by
  cases u with
  | infinity s => cases hufin
  | notANumber => cases hufin
  | zero s =>
      have hzero : units (.zero s) = 0 := rfl
      cases v with
      | infinity t => cases hvfin
      | notANumber => cases hvfin
      | zero t =>
          rw [hzero, show units (.zero t) = 0 from rfl, Int.add_zero, clamp_nearestInt_zero]
          cases s <;> cases t <;> rfl
      | finite t n f hn =>
          have hadd : added (.zero s) (.finite t n f hn) = .finite t n f hn := unpack_pack hv
          rw [hadd, hzero, Int.zero_add, clamp_nearestInt_units hv rfl]
  | finite s m e hm =>
      cases v with
      | infinity t => cases hvfin
      | notANumber => cases hvfin
      | zero t =>
          have hadd : added (.finite s m e hm) (.zero t) = .finite s m e hm := unpack_pack hu
          rw [hadd, show units (.zero t) = 0 from rfl, Int.add_zero, clamp_nearestInt_units hu rfl]
      | finite t n f hn =>
          obtain ⟨a, rfl⟩ : ∃ a : Nat, e = (a : Int) - 1074 :=
            ⟨(e + 1074).toNat, by have := hu.1.exponent; omega⟩
          obtain ⟨b, rfl⟩ : ∃ b : Nat, f = (b : Int) - 1074 :=
            ⟨(f + 1074).toNat, by have := hv.1.exponent; omega⟩
          have hmin : min ((a : Int) - 1074) ((b : Int) - 1074) =
              ((min a b : Nat) : Int) - 1074 := by omega
          rw [units_eq_mul (Nat.min_le_left a b), units_eq_mul (Nat.min_le_right a b),
            ← Int.add_mul, ← units_normalize]
          unfold added add
          dsimp only
          rw [hmin]

/-- A sum with an infinity on the left is that infinity, if it is a number. -/
theorem added_infinity {s : Sign} {v : UnpackedFloat} (h : (added (.infinity s) v).isNaN = false) :
    added (.infinity s) v = .infinity s := by
  have hadd : add .binary64 (.infinity s) v = .infinity s ∨
      add .binary64 (.infinity s) v = .notANumber := by
    cases v with
    | infinity t => cases s <;> cases t <;> first | exact .inl rfl | exact .inr rfl
    | notANumber => exact .inr rfl
    | zero t => exact .inl rfl
    | finite t n f hn => exact .inl rfl
  unfold added at h ⊢
  cases hadd with
  | inl hadd =>
      rw [hadd]
      exact unpack_pack (u := .infinity s) trivial
  | inr hadd =>
      rw [hadd] at h
      cases h

theorem isCanonical_added (u v : UnpackedFloat) : IsCanonical (added u v) := isCanonical_unpack _

theorem added_comm (u v : UnpackedFloat) : added u v = added v u := by
  unfold added
  rw [add_unpacked_comm]

theorem limit_pos : 0 < limit := Nat.mul_pos (by decide) (Nat.two_pow_pos _)

/-- Every double stands within the limits. -/
theorem units_le_limit {u : UnpackedFloat} (h : IsCanonical u) :
    -limit ≤ units u ∧ units u ≤ limit := by
  have hlimit := limit_pos
  have := units_of_orderKey h
  omega

/-- A finite double stands between them. -/
theorem units_lt_limit {u : UnpackedFloat} (h : IsCanonical u) (hfin : u.isFinite = true) :
    -limit < units u ∧ units u < limit := by
  have hlimit := limit_pos
  cases u with
  | infinity s => cases hfin
  | notANumber => cases hfin
  | zero s =>
      have hzero : units (.zero s) = 0 := rfl
      omega
  | finite s m e hm =>
      have hlt := h.1.lt_limit h.2
      cases s <;> simp only [units, Sign.apply] <;> omega

/-- What is no number is neither finite nor infinite. -/
theorem eq_infinity {u : UnpackedFloat} (hnan : u.isNaN = false) (hfin : ¬u.isFinite = true) :
    ∃ s, u = .infinity s := by
  cases u with
  | infinity s => exact ⟨s, rfl⟩
  | notANumber => cases hnan
  | zero s => exact absurd rfl hfin
  | finite s m e hm => exact absurd rfl hfin

/-- **Monotony of addition**: rounded sums are in the order of their first terms. -/
theorem units_added_mono {u v w : UnpackedFloat} (hu : IsCanonical u) (hv : IsCanonical v)
    (hw : IsCanonical w) (hun : u.isNaN = false) (hvn : v.isNaN = false) (hwn : w.isNaN = false)
    (hle : units u ≤ units v) (huw : (added u w).isNaN = false)
    (hvw : (added v w).isNaN = false) : units (added u w) ≤ units (added v w) := by
  have hlimit := limit_pos
  have hneg : units (.infinity .negative) = -limit := rfl
  have hpos : units (.infinity .positive) = limit := rfl
  by_cases hwfin : w.isFinite = true
  · by_cases hufin : u.isFinite = true
    · have hult := units_lt_limit hu hufin
      by_cases hvfin : v.isFinite = true
      · rw [units_added hu hw hufin hwfin, units_added hv hw hvfin hwfin]
        exact clamp_mono (nearestInt_mono (by omega))
      · obtain ⟨t, rfl⟩ := eq_infinity hvn hvfin
        have hbound := units_le_limit (isCanonical_added u w)
        rw [added_infinity hvw]
        cases t with
        | negative => omega
        | positive => omega
    · obtain ⟨s, rfl⟩ := eq_infinity hun hufin
      rw [added_infinity huw]
      cases s with
      | negative =>
          have hbound := units_le_limit (isCanonical_added v w)
          omega
      | positive =>
          have hvfin : ¬v.isFinite = true := fun h => by
            have := units_lt_limit hv h
            omega
          obtain ⟨t, rfl⟩ := eq_infinity hvn hvfin
          rw [added_infinity hvw]
          exact hle
  · obtain ⟨r, rfl⟩ := eq_infinity hwn hwfin
    rw [added_comm] at huw hvw
    rw [added_comm u, added_comm v, added_infinity huw, added_infinity hvw]

/-- Nothing changes where zero is added. -/
theorem units_zero_added {v : UnpackedFloat} (hv : IsCanonical v) (hvn : v.isNaN = false) :
    (added (.zero .positive) v).isNaN = false ∧ units (added (.zero .positive) v) = units v := by
  cases v with
  | infinity t => cases t <;> exact ⟨rfl, rfl⟩
  | notANumber => cases hvn
  | zero t => cases t <;> exact ⟨rfl, rfl⟩
  | finite t n f hn =>
      have hadd : added (.zero .positive) (.finite t n f hn) = .finite t n f hn := unpack_pack hv
      rw [hadd]
      exact ⟨rfl, rfl⟩

/-- NaN added to anything is NaN. -/
theorem isNaN_of_added {u v : UnpackedFloat} (h : (added u v).isNaN = false) :
    u.isNaN = false ∧ v.isNaN = false := by
  have hleft {u v : UnpackedFloat} (h : (added u v).isNaN = false) : u.isNaN = false := by
    cases u with
    | notANumber =>
        have hadd : add .binary64 notANumber v = notANumber := by cases v <;> rfl
        unfold added at h
        rw [hadd] at h
        cases h
    | _ => rfl
  refine ⟨hleft h, ?_⟩
  rw [added_comm] at h
  exact hleft h

/-- The number of the other sign stands on the other side. -/
theorem units_neg (u : UnpackedFloat) : units u.neg = -units u := by
  cases u with
  | infinity s => exact apply_neg s _
  | notANumber => rfl
  | zero s => rfl
  | finite s m e hm => exact apply_neg s _

/-- NaN has no other sign. -/
theorem isNaN_neg (u : UnpackedFloat) : u.neg.isNaN = u.isNaN := by cases u <;> rfl

theorem isCanonical_neg {u : UnpackedFloat} (h : IsCanonical u) : IsCanonical u.neg := by
  cases u with
  | finite s m e hm => exact h
  | _ => trivial

/-! ## zero as a term -/

/-- A sum of two doubles fits before it is packed, and it is negative zero only if both
terms are. -/
def IsRounded : UnpackedFloat → Prop
  | .finite _ m e _ => Fits m e
  | .zero s => s = .positive
  | _ => True

/-- Rounding gives such numbers. -/
theorem isRounded_normalize (z : Int) (k : Nat) :
    IsRounded (UnpackedFloat.normalize .binary64 z ((k : Int) - 1074) .positive) := by
  have hround (s : Sign) {m : Nat} (hm : 0 < m) :
      IsRounded (UnpackedFloat.round .binary64 s m ((k : Int) - 1074)) := by
    obtain ⟨m', v, h, hround, hfits, -⟩ := round_eq s hm k
    rw [hround]
    exact hfits
  unfold UnpackedFloat.normalize
  cases hz : compare z 0 with
  | lt =>
      rw [compare_lt_iff_lt] at hz
      exact hround .negative (by omega)
  | eq => rfl
  | gt =>
      rw [compare_gt_iff_gt] at hz
      exact hround .positive (by omega)

/-- Packing keeps what is rounded, or makes it infinite. -/
theorem isRounded_unpack_pack {u : UnpackedFloat} (h : IsRounded u) :
    IsRounded (unpack .binary64 (pack .binary64 u)) := by
  cases u with
  | infinity s => cases s <;> trivial
  | notANumber => trivial
  | zero s =>
      rw [unpack_pack (u := .zero s) trivial]
      exact h
  | finite s m e hm =>
      rw [unpack_pack_finite s hm h]
      split
      · exact h
      · trivial

/-- Zero added to anything but negative zero changes nothing. -/
theorem zero_add_of_isRounded {u : UnpackedFloat} (h : IsRounded u) :
    add .binary64 (.zero .positive) u = u := by
  cases u with
  | zero s =>
      have hs : s = .positive := h
      rw [hs]
      rfl
  | _ => rfl

/-- A sum is rounded if one of its terms is anything but negative zero. -/
theorem isRounded_add {u v : UnpackedFloat} (hu : IsCanonical u) (hv : IsCanonical v)
    (h : IsRounded u) : IsRounded (add .binary64 u v) := by
  rcases u with s | _ | s | ⟨s, m, e, hm⟩ <;> rcases v with t | _ | t | ⟨t, n, f, hn⟩ <;>
    try trivial
  case infinity.infinity => cases s <;> cases t <;> trivial
  case zero.zero =>
      have hs : s = .positive := h
      rw [hs]
      cases t <;> rfl
  case zero.finite => exact hv.1
  case finite.finite =>
      have he := hu.1.exponent
      have hf := hv.1.exponent
      have hmin : min e f = ((min e f + 1074).toNat : Int) - 1074 := by omega
      unfold add
      dsimp only
      rw [hmin]
      exact isRounded_normalize _ _

/-- Two doubles with one key differ at most in the sign of zero. -/
theorem zero_add_eq_of_orderKey {u v : UnpackedFloat} (hu : u.isNaN = false)
    (hv : v.isNaN = false) (h : orderKey u = orderKey v) :
    add .binary64 (.zero .positive) u = add .binary64 (.zero .positive) v := by
  rcases u with ⟨_ | _⟩ | _ | ⟨_ | _⟩ | ⟨_ | _, m, e, hm⟩ <;>
    rcases v with ⟨_ | _⟩ | _ | ⟨_ | _⟩ | ⟨_ | _, n, f, hn⟩ <;>
    first
    | rfl
    | cases hu; done
    | cases hv; done
    | (have hkind := congrArg (fun k => (ofLex k).1) h; cases hkind; done)
    | skip
  case finite.negative.finite.negative =>
      have he : -e = -f := congrArg (fun k => (ofLex (ofLex k).2).1) h
      have hm : -(m : Int) = -n := congrArg (fun k => (ofLex (ofLex k).2).2) h
      exact finite_congr _ _ (by omega) (by omega)
  case finite.positive.finite.positive =>
      have he : e = f := congrArg (fun k => (ofLex (ofLex k).2).1) h
      have hm : (m : Int) = n := congrArg (fun k => (ofLex (ofLex k).2).2) h
      exact finite_congr _ _ (by omega) he

/-! ## doubles -/

theorem isCanonical (x : Float) : IsCanonical x.toModel.unpack := isCanonical_unpack _

/-- Doubles are in the order of their places. -/
theorem le_iff_units {x y : Float} (hx : Timescale.IsNumber x) (hy : Timescale.IsNumber y) :
    x ≤ y ↔ units x.toModel.unpack ≤ units y.toModel.unpack := by
  rw [isNumber_iff] at hx hy
  rw [le_iff, orderKey_le_iff (isCanonical x) (isCanonical y)]
  simp [hx, hy]

/-- A double is below zero just if its place is. -/
theorem lt_zero_iff {x : Float} : x < 0 ↔ units x.toModel.unpack < 0 := by
  have hzero : units (0 : Float).toModel.unpack = 0 := rfl
  have hnum : (0 : Float).toModel.unpack.isNaN = false := rfl
  by_cases hx : x.toModel.unpack.isNaN = false
  · rw [lt_iff, lt_iff_not_ge, orderKey_le_iff (isCanonical 0) (isCanonical x), hzero]
    simp [hx, hnum]
  · have hnan : x.toModel.unpack = .notANumber := by
      cases h : x.toModel.unpack with
      | notANumber => rfl
      | _ => rw [h] at hx; exact absurd rfl hx
    rw [lt_iff, hnan]
    exact iff_of_false (fun h => by cases h.1) (by decide)

/-- The parts of a sum are those of the terms, added. -/
theorem unpack_add (x y : Float) :
    (x + y).toModel.unpack = added x.toModel.unpack y.toModel.unpack := rfl

/-- The parts of a difference. -/
theorem unpack_sub (x y : Float) :
    (x - y).toModel.unpack = added x.toModel.unpack y.toModel.unpack.neg := by
  unfold added
  rw [← sub_unpacked_eq]
  rfl

/-- Doubles that are packed from the same parts are the same. -/
theorem eq_of_toModel {x y : Float} (h : x.toModel = y.toModel) : x = y := congrArg Float.ofModel h

/-- A double is packed from its own parts. -/
theorem pack_unpack_toModel (x : Float.Model) : Float.Model.pack x.unpack = x := by
  unfold Float.Model.pack Float.Model.unpack
  simp only [pack_unpack_of_valid x.valid]

theorem add_comm (x y : Float) : x + y = y + x :=
  eq_of_toModel (congrArg Float.Model.pack (add_unpacked_comm x.toModel.unpack y.toModel.unpack))

/-- **Monotony of sums**: a sum that is a number does not shrink when its first term grows. -/
theorem add_le_add_right {a b c : Float} (h : a ≤ b) (hac : Timescale.IsNumber (a + c))
    (hbc : Timescale.IsNumber (b + c)) : a + c ≤ b + c := by
  have ha := Timescale.Ordered.isNumber_left h
  have hb := Timescale.Ordered.isNumber_right h
  rw [le_iff_units ha hb] at h
  rw [le_iff_units hac hbc]
  rw [isNumber_iff] at ha hb hac hbc
  exact units_added_mono (isCanonical a) (isCanonical b) (isCanonical c) ha hb
    (isNaN_of_added hac).2 h hac hbc

/-- A difference is not above what is taken away from, unless that is negative. -/
theorem sub_le {a b : Float} (hb : ¬b < 0) (h : Timescale.IsNumber (a - b)) : a - b ≤ a := by
  obtain ⟨u, hu⟩ : ∃ u, a.toModel.unpack = u := ⟨_, rfl⟩
  obtain ⟨v, hv⟩ : ∃ v, b.toModel.unpack.neg = v := ⟨_, rfl⟩
  have hsub : (a - b).toModel.unpack = added u v := by rw [unpack_sub, hu, hv]
  have huc : IsCanonical u := hu ▸ isCanonical a
  have hvc : IsCanonical v := hv ▸ isCanonical_neg (isCanonical b)
  have hnan := (isNumber_iff _).mp h
  rw [hsub] at hnan
  obtain ⟨hun, hvn⟩ := isNaN_of_added hnan
  have ha : Timescale.IsNumber a := (isNumber_iff a).mpr (hu ▸ hun)
  rw [le_iff_units h ha, hsub, hu]
  have hzc : IsCanonical (.zero .positive) := trivial
  have hle : units v ≤ units (.zero .positive) := by
    rw [lt_zero_iff] at hb
    rw [← hv, units_neg]
    change _ ≤ (0 : Int)
    omega
  obtain ⟨hzero, hunits⟩ := units_zero_added huc hun
  rw [added_comm] at hnan ⊢
  exact (units_added_mono hvc hzc huc hvn rfl hun hle hnan hzero).trans hunits.le

/-- Zero moves no number. -/
theorem le_zero_add {a : Float} (h : Timescale.IsNumber a) : a ≤ 0 + a := by
  have hzero : (0 : Float).toModel.unpack = .zero .positive := rfl
  obtain ⟨hnan, hunits⟩ := units_zero_added (isCanonical a) ((isNumber_iff a).mp h)
  rw [← hzero, ← unpack_add] at hnan hunits
  rw [le_iff_units h ((isNumber_iff _).mpr hnan), hunits]

/-- Zero changes no number by more than its sign. -/
theorem zero_add_eq {a b : Float} (hab : a ≤ b) (hba : b ≤ a) : 0 + a = 0 + b := by
  obtain ⟨ha, hb, hab⟩ := (le_iff a b).mp hab
  obtain ⟨-, -, hba⟩ := (le_iff b a).mp hba
  exact eq_of_toModel (congrArg Float.Model.pack
    (zero_add_eq_of_orderKey ha hb (le_antisymm hab hba)))

/-- Zero is added without a change to any double but negative zero. -/
theorem zero_add_eq_self_iff {a : Float} : 0 + a = a ↔ IsRounded a.toModel.unpack := by
  have hzero : (0 : Float).toModel.unpack = .zero .positive := rfl
  constructor
  · intro h
    have hadded := unpack_add 0 a
    have hc := isCanonical a
    rw [h, hzero] at hadded
    cases ha : a.toModel.unpack with
    | zero s =>
        rw [ha] at hadded
        cases s with
        | positive => rfl
        | negative =>
            have hsum : added (.zero .positive) (.zero .negative) = .zero .positive := rfl
            rw [hsum] at hadded
            cases hadded
    | finite s m e hm =>
        rw [ha] at hc
        exact hc.1
    | _ => trivial
  · intro h
    apply eq_of_toModel
    change Float.Model.pack (add .binary64 (.zero .positive) a.toModel.unpack) = _
    rw [zero_add_of_isRounded h, pack_unpack_toModel]

/-- A sum is not negative zero if its first term is not. -/
theorem zero_add_add {a b : Float} (h : 0 + a = a) : 0 + (a + b) = a + b :=
  zero_add_eq_self_iff.mpr (isRounded_unpack_pack
    (isRounded_add (isCanonical a) (isCanonical b) (zero_add_eq_self_iff.mp h)))

/-! ## differences -/

/-- An integer and its rounding have the same sign. -/
theorem pos_nearestInt_iff {z : Int} : 0 < clamp (nearestInt z) ↔ 0 < z := by
  have hlimit := limit_pos
  have hzero : clamp (nearestInt 0) = 0 := clamp_nearestInt_zero
  have hone : clamp (nearestInt 1) = 1 := by decide +kernel
  constructor
  · intro h
    by_contra hz
    have hle := clamp_mono (nearestInt_mono (show z ≤ 0 by omega))
    omega
  · intro h
    have hle := clamp_mono (nearestInt_mono (show 1 ≤ z by omega))
    omega

/-- Opposite infinities have no sum, and stand on opposite sides of zero. -/
theorem pos_units_added_infinity (s t : Sign) :
    0 < units (added (.infinity s) (.infinity t)) ↔
      0 < units (.infinity s) + units (.infinity t) := by
  cases s <;> cases t <;> decide +kernel

/-- **A sum is above zero** just if the exact sum is: what is not zero is not rounded to it, and
an infinity outweighs everything that is finite. -/
theorem pos_units_added_iff {u v : UnpackedFloat} (hu : IsCanonical u) (hv : IsCanonical v)
    (hun : u.isNaN = false) (hvn : v.isNaN = false) :
    0 < units (added u v) ↔ 0 < units u + units v := by
  have hlimit := limit_pos
  have hinf {s : Sign} {v : UnpackedFloat} (hv : IsCanonical v) (hfin : v.isFinite = true) :
      0 < units (added (.infinity s) v) ↔ 0 < units (.infinity s) + units v := by
    have hnan : (added (.infinity s) v).isNaN = false := isNaN_unpack_pack _ (isNaN_add rfl hfin)
    have hbound := units_lt_limit hv hfin
    have hunits : units (.infinity s) = s.apply limit := rfl
    rw [added_infinity hnan, hunits]
    cases s <;> simp only [Sign.apply] <;> omega
  by_cases hufin : u.isFinite = true
  · by_cases hvfin : v.isFinite = true
    · rw [units_added hu hv hufin hvfin, pos_nearestInt_iff]
    · obtain ⟨t, rfl⟩ := eq_infinity hvn hvfin
      rw [added_comm, Int.add_comm]
      exact hinf hu hufin
  · obtain ⟨s, rfl⟩ := eq_infinity hun hufin
    by_cases hvfin : v.isFinite = true
    · exact hinf hv hvfin
    · obtain ⟨t, rfl⟩ := eq_infinity hvn hvfin
      exact pos_units_added_infinity s t

/-- A double is above zero just if its place is. -/
theorem zero_lt_iff {x : Float} : 0 < x ↔ 0 < units x.toModel.unpack := by
  have hzero : units (0 : Float).toModel.unpack = 0 := rfl
  have hnum : Timescale.IsNumber (0 : Float) := Timescale.Ordered.isNumber_zero
  by_cases hx : Timescale.IsNumber x
  · have hle := le_iff_units hx hnum
    rw [Timescale.Ordered.lt_iff, hle, le_iff_units hnum hx, hzero]
    omega
  · refine iff_of_false (fun h => hx (Timescale.Ordered.isNumber_right (Timescale.le_of_lt h))) ?_
    rw [isNumber_iff] at hx
    cases hparts : x.toModel.unpack with
    | notANumber => exact Int.lt_irrefl 0
    | _ => rw [hparts] at hx; exact absurd rfl hx

/-- **Gradual underflow**: a difference is above zero just if it should be, however close
the two doubles are. -/
theorem sub_pos_iff {a b : Float} : 0 < a - b ↔ b < a := by
  have hcanonical := isCanonical_neg (isCanonical b)
  have hpos (ha : Timescale.IsNumber a) (hb : Timescale.IsNumber b) : 0 < a - b ↔ b < a := by
    rw [Timescale.Ordered.lt_iff (a := b), le_iff_units ha hb, le_iff_units hb ha, zero_lt_iff,
      unpack_sub]
    rw [isNumber_iff] at ha hb
    rw [pos_units_added_iff (isCanonical a) hcanonical ha ((isNaN_neg _).trans hb), units_neg]
    omega
  constructor
  · intro h
    have hnan := (isNumber_iff _).mp (Timescale.Ordered.isNumber_right (Timescale.le_of_lt h))
    rw [unpack_sub] at hnan
    obtain ⟨ha, hb⟩ := isNaN_of_added hnan
    rw [isNaN_neg] at hb
    exact (hpos ((isNumber_iff a).mpr ha) ((isNumber_iff b).mpr hb)).mp h
  · intro h
    have hle := Timescale.le_of_lt h
    exact (hpos (Timescale.Ordered.isNumber_right hle) (Timescale.Ordered.isNumber_left hle)).mpr h

end Binary64

end SharedLink
