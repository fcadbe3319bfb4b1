/-!
# SharedLink.Decimal.Digits

Integers in decimal, without separators or leading zeros, and the small pieces
of text that every other number format is put together from.
-/

namespace SharedLink

namespace Decimal

/-- The decimal digits of a natural number. -/
def ofNat (n : Nat) : String := String.ofList (Nat.toDigits 10 n)

/-- A minus sign for negative numbers, then the digits. -/
def ofInt (n : Int) : String :=
  if n < 0 then "-" ++ ofNat n.natAbs else ofNat n.natAbs

/-- `n` zeros. -/
def zeros (n : Nat) : String := String.ofList (List.replicate n '0')

/-- Zeros in front, up to a width of `width`. -/
def padLeft (width : Nat) (s : String) : String := zeros (width - s.length) ++ s

/-- A minus sign in front when the flag is set. -/
def signed (negative : Bool) (s : String) : String := if negative then "-" ++ s else s

end Decimal

end SharedLink
