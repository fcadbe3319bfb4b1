import SharedLink.Binary64
import SharedLink.Decimal.Digits

/-!
# SharedLink.Decimal.Shortest

The fewest decimal digits that read back to a double, and of those the nearest
to it.

A double stands for all reals that round to it, from halfway to the neighbour
below to halfway to the neighbour above, the ends included when its count of
units is even.  For one digit, two digits and so on the search takes the decimal
grid of that many digits and tests the two grid points around the exact value;
the first grid with a hit wins.

* `readsBack_of_search` — what the search finds lies among those reals.
-/

namespace SharedLink

namespace Decimal

open Binary64 (ratio hiddenBit)
open Fraction (atLeastPower inUnits roundDiv)

/-- `digits · 10 ^ exponent`. -/
structure Scaled where
  digits : Nat
  exponent : Int
deriving DecidableEq, Repr

/-- The same number with no zero at the end of its digits. -/
def Scaled.trim : Nat → Scaled → Scaled
  | 0, s => s
  | fuel + 1, s =>
    if s.digits ≠ 0 ∧ s.digits % 10 = 0 then trim fuel ⟨s.digits / 10, s.exponent + 1⟩ else s

/-- A scaled number as a fraction of natural numbers. -/
def Scaled.ratio (s : Scaled) : Nat × Nat := Fraction.scaled 10 s.digits s.exponent

/-- `s` lies among the reals that round to the double `m · 2 ^ e`.  The ends are
odd multiples of a half unit, of a quarter below the first double of a binade. -/
def readsBack (m : Nat) (e : Int) (s : Scaled) : Bool :=
  let (num, den) := s.ratio
  let (lowNum, lowDen) :=
    if m = hiddenBit ∧ -1074 < e then ratio (4 * m - 1) (e - 2) else ratio (2 * m - 1) (e - 1)
  let (highNum, highDen) := ratio (2 * m + 1) (e - 1)
  let low := lowNum * den
  let high := num * highDen
  if m % 2 = 0 then low ≤ num * lowDen && high ≤ highNum * den
  else low < num * lowDen && high < highNum * den

/-- The place of the leading digit: the largest `k` with `10 ^ k ≤ num / den`,
sought downwards from `start`. -/
def leadingPlace (num den : Nat) : Nat → Int → Int
  | 0, k => k
  | fuel + 1, k =>
    if atLeastPower 10 k num den then k else leadingPlace num den fuel (k - 1)

/-- The two points of the grid `10 ^ exponent` around `num / den`, if they read
back: the nearer one, on a tie the even one. -/
def onGrid? (m : Nat) (e : Int) (exponent : Int) : Option Scaled :=
  let (num, den) := ratio m e
  let (top, bottom) := inUnits 10 exponent num den
  let below : Scaled := ⟨top / bottom, exponent⟩
  let above : Scaled := ⟨top / bottom + 1, exponent⟩
  let nearest := if roundDiv top bottom = below.digits then below else above
  let other := if nearest = below then above else below
  if readsBack m e nearest then some nearest
  else if readsBack m e other then some other
  else none

/-- The first grid with a hit, from `exponent` downwards; at most `fuel` finer
grids are tried. -/
def search (m : Nat) (e : Int) : Nat → Int → Option Scaled
  | 0, exponent => onGrid? m e exponent
  | fuel + 1, exponent =>
    match onGrid? m e exponent with
    | some s => some s
    | none => search m e fuel (exponent - 1)

/-- All digits of `m · 2 ^ e`; a half is five tenths. -/
def exact (m : Nat) (e : Int) : Scaled :=
  if 0 ≤ e then ⟨m * Nat.pow 2 e.toNat, 0⟩ else ⟨m * Nat.pow 5 (-e).toNat, e⟩

/-- The shortest decimal for `m · 2 ^ e` with `0 < m`.  Seventeen digits suffice
for every double, so the search tries that many grids; the guess for the leading
place is at most three too high. -/
def shortest (m : Nat) (e : Int) : Scaled :=
  let (num, den) := ratio m e
  let guess := ((num.log2 : Int) - den.log2 + 1) * 30103 / 100000 + 1
  match search m e 17 (leadingPlace num den 4 guess) with
  | some s => Scaled.trim 17 s
  | none => exact m e

/-! ## what is found reads back -/

/-- A hit on one grid reads back. -/
theorem readsBack_of_onGrid? {m : Nat} {e exponent : Int} {s : Scaled}
    (h : onGrid? m e exponent = some s) : readsBack m e s = true := by
  grind [onGrid?]

/-- A hit of the search reads back. -/
theorem readsBack_of_search {m : Nat} {e : Int} {fuel : Nat} {exponent : Int} {s : Scaled}
    (h : search m e fuel exponent = some s) : readsBack m e s = true := by
  induction fuel generalizing exponent with
  | zero => exact readsBack_of_onGrid? h
  | succ fuel ih => grind [search, readsBack_of_onGrid?]

end Decimal

end SharedLink
