import SharedLink.Decimal.Written

/-!
# SharedLink.Quantity

What is given in numbers: lengths, sizes, speeds, bandwidths, counts of cores
and ranks.

A quantity is an integer of any size or a double, and stays what it is until it
is computed with.  An integer that meets a double is rounded to one, and fails
to be one beyond the range of doubles; comparisons never round.
-/

namespace SharedLink

/-- A number as it was given. -/
inductive Quantity where
  | int (n : Int)
  | double (x : Float)
deriving DecidableEq, Repr

namespace Quantity

instance (n : Nat) : OfNat Quantity n := ⟨.int n⟩

instance : Inhabited Quantity := ⟨0⟩

/-- `a` is strictly below `b`, compared without rounding. -/
def before : Quantity → Quantity → Bool
  | int m, int n => decide (m < n)
  | int m, double y => Binary64.intBefore m y
  | double x, int n => Binary64.beforeInt x n
  | double x, double y => decide (x < y)

/-- Below zero; NaN is not. -/
def isNegative : Quantity → Bool
  | int n => decide (n < 0)
  | double x => decide (x < 0)

/-- Zero or below; NaN is not. -/
def isAtMostZero : Quantity → Bool
  | int n => decide (n ≤ 0)
  | double x => decide (x ≤ 0)

/-- Whether a quantity is neither infinite nor NaN.  Of integers this can only be
told if they fit in 64 bits, with a sign or without one. -/
def isFinite? : Quantity → Option Bool
  | int n => if -0x8000000000000000 ≤ n ∧ n < 0x10000000000000000 then some true else none
  | double x => some (Binary64.isFinite x)

/-- The quantity as a double, if it is in range. -/
def toDouble? : Quantity → Option Float
  | int n => Binary64.ofInt? n
  | double x => some x

/-- The exact value of a finite quantity. -/
def toRat? : Quantity → Option Rat
  | int n => some n
  | double x => Binary64.value? x

/-- The sum: exact for integers, otherwise a double. -/
def add? : Quantity → Quantity → Option Quantity
  | int m, int n => some (int (m + n))
  | a, b => return double ((← a.toDouble?) + (← b.toDouble?))

/-- The sum of a list from the integer zero, left to right.  Every sum of doubles
is rounded, and what is rounded off is not made up for later. -/
def sum? (qs : List Quantity) : Option Quantity := qs.foldlM add? 0

/-- The quotient as a double: of two integers the exact one rounded once. -/
def quotient? : Quantity → Quantity → Option Float
  | int a, int b => if b = 0 then none else Binary64.ofQuotient? a b
  | a, b => return (← a.toDouble?) / (← b.toDouble?)

/-- Doubles are written positionally from `0.0001` up to sixteen digits before
the point; other exponents have two digits at least. -/
def style : Decimal.Style := ⟨-4, 15, 2⟩

/-- A quantity as text. -/
def write : Quantity → String
  | int n => Decimal.ofInt n
  | double x => style.write x

end Quantity

end SharedLink
