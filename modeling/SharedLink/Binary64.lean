import SharedLink.Fraction

/-!
# SharedLink.Binary64

Doubles seen as exact numbers.

`decode` splits the bits of a double into a sign, a natural number `m` and a
power of two; `ofRatio?` goes the other way and rounds a fraction to the
nearest double once, a half to the even neighbour, subnormal results included.
Everything in between is arithmetic on integers.
-/

namespace SharedLink

namespace Binary64

open Fraction

/-- The bit of the sign, 2 to the 63rd. -/
def signBit : Nat := 0x8000000000000000

/-- The bit above the fraction, 2 to the 52nd. -/
def hiddenBit : Nat := 0x10000000000000

/-- The exponent field of the doubles that are no numbers. -/
def topExponent : Nat := 2047

/-- What the bits of a double stand for: `finite neg m e` is `m · 2 ^ e`, negated
when `neg` is set (so there are two zeros). -/
inductive Reading where
  | nan
  | infinite (negative : Bool)
  | finite (negative : Bool) (m : Nat) (e : Int)
deriving DecidableEq, Repr

/-- The reading of a double: one sign bit, eleven bits of exponent, 52 of fraction. -/
def decode (x : Float) : Reading :=
  let bits := x.toBits.toNat
  let negative := decide (signBit ≤ bits)
  let biased := bits / hiddenBit % (topExponent + 1)
  let fraction := bits % hiddenBit
  if biased = topExponent then
    if fraction = 0 then .infinite negative else .nan
  else if biased = 0 then .finite negative fraction (-1074)
  else .finite negative (hiddenBit + fraction) ((biased : Int) - 1075)

/-- `m · 2 ^ e` as a fraction of natural numbers. -/
def ratio (m : Nat) (e : Int) : Nat × Nat := scaled 2 m e

/-- The exact value of a finite double. -/
def value? (x : Float) : Option Rat :=
  match decode x with
  | .finite negative m e =>
    let (num, den) := ratio m e
    some (mkRat (if negative then -(num : Int) else num) den)
  | _ => none

/-- `n` is strictly below the double `x`; both are taken exactly, and nothing is
below NaN. -/
def intBefore (n : Int) (x : Float) : Bool :=
  match decode x with
  | .nan => false
  | .infinite negative => !negative
  | .finite negative m e =>
    let (num, den) := ratio m e
    decide (n * den < if negative then -(num : Int) else num)

/-- The double `x` is strictly below `n`; NaN is below nothing. -/
def beforeInt (x : Float) (n : Int) : Bool :=
  match decode x with
  | .nan => false
  | .infinite negative => negative
  | .finite negative m e =>
    let (num, den) := ratio m e
    decide ((if negative then -(num : Int) else num) < n * den)

/-! ## rounding -/

/-- The largest `k` with `2 ^ k ≤ num / den`, for a positive fraction. -/
def floorLog2 (num den : Nat) : Int :=
  let k := (num.log2 : Int) - den.log2
  if atLeastPower 2 k num den then k else k - 1

/-- The double nearest to `num / den`, a half to the even neighbour; none beyond
the largest finite double.  The unit in the last place leaves 53 bits, or is the
subnormal unit; adding the rounded count of units to the exponent
field lets a carry move into the exponent by itself. -/
def ofRatio? (negative : Bool) (num den : Nat) : Option Float :=
  let sign := if negative then signBit else 0
  if num = 0 then some (Float.ofBits (UInt64.ofNat sign))
  else
    let e := max (floorLog2 num den - 52) (-1074)
    let (top, bottom) := inUnits 2 e num den
    let bits := (e + 1074).toNat * hiddenBit + roundDiv top bottom
    if bits < topExponent * hiddenBit then some (Float.ofBits (UInt64.ofNat (sign + bits))) else none

/-- The double nearest to an integer. -/
def ofInt? (n : Int) : Option Float :=
  ofRatio? (decide (n < 0)) n.natAbs 1

/-- The quotient of two integers rounded once, for a divisor other than zero. -/
def ofQuotient? (a b : Int) : Option Float :=
  ofRatio? (decide (a < 0) != decide (b < 0)) a.natAbs b.natAbs

/-- The infinity of a sign. -/
def infinity (negative : Bool) : Float :=
  Float.ofBits (if negative then 0xfff0000000000000 else 0x7ff0000000000000)

/-- The one NaN that is ever made here. -/
def nan : Float := Float.ofBits 0x7ff8000000000000

/-- Neither infinite nor NaN. -/
def isFinite (x : Float) : Bool :=
  match decode x with
  | .finite _ _ _ => true
  | _ => false

end Binary64

end SharedLink
