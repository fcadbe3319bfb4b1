import SharedLink.Decimal.Shortest

/-!
# SharedLink.Decimal.Written

Doubles as text, in two ways.

* `Style.write` spells the shortest decimal of a double, positionally for
  middling exponents and with a power of ten for the others; which is which is
  the style's choice.
* `fixed` rounds the exact value to a number of places, a half to the even
  neighbour.
-/

namespace SharedLink

namespace Decimal

open Binary64 (decode ratio)

/-- How a shortest decimal is laid out. -/
structure Style where
  /-- the least decimal exponent that is written positionally -/
  least : Int
  /-- the greatest decimal exponent that is written positionally -/
  greatest : Int
  /-- the least number of digits of a written exponent -/
  exponentWidth : Nat
deriving Repr

/-- Positional: the point stands after `whole` digits; a number without a
fraction ends in `.0`. -/
def positional (digits : String) (whole : Int) : String :=
  if whole ≤ 0 then "0." ++ zeros (-whole).toNat ++ digits
  else if digits.length ≤ whole.toNat then digits ++ zeros (whole.toNat - digits.length) ++ ".0"
  else String.ofList (digits.toList.take whole.toNat) ++ "."
    ++ String.ofList (digits.toList.drop whole.toNat)

/-- Scientific: one digit before the point, no point for a single digit, and a
signed exponent of at least `width` digits. -/
def scientific (width : Nat) (digits : String) (exponent : Int) : String :=
  let head := String.ofList (digits.toList.take 1)
  let rest := String.ofList (digits.toList.drop 1)
  let mantissa := if rest.isEmpty then head else head ++ "." ++ rest
  mantissa ++ (if exponent < 0 then "e-" else "e+") ++ padLeft width (ofNat exponent.natAbs)

/-- A scaled number in a style. -/
def Style.layOut (style : Style) (s : Scaled) : String :=
  let digits := ofNat s.digits
  let exponent := s.exponent + digits.length - 1
  if style.least ≤ exponent ∧ exponent ≤ style.greatest then positional digits (exponent + 1)
  else scientific style.exponentWidth digits exponent

/-- A double by its shortest decimal. -/
def Style.write (style : Style) (x : Float) : String :=
  match decode x with
  | .nan => "nan"
  | .infinite negative => signed negative "inf"
  | .finite negative m e => signed negative (if m = 0 then "0.0" else style.layOut (shortest m e))

/-- A double with exactly `places` digits after the point, for `0 < places`. -/
def fixed (places : Nat) (x : Float) : String :=
  match decode x with
  | .nan => "nan"
  | .infinite negative => signed negative "inf"
  | .finite negative m e =>
    let (num, den) := ratio m e
    let digits := padLeft (places + 1) (ofNat (Fraction.roundDiv (num * Nat.pow 10 places) den))
    let whole := digits.length - places
    signed negative (String.ofList (digits.toList.take whole) ++ "."
      ++ String.ofList (digits.toList.drop whole))

end Decimal

end SharedLink
