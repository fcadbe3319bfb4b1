import SharedLink.Quantity

/-!
# SharedLink.Timescale

What planning asks of its times.

Planning adds, subtracts and compares times, and obtains them from quantities.
It is written for any type that offers this, so that the same definitions run
on doubles, where every operation rounds, and on exact rationals.  A conversion
fails when no time is near the quantity: beyond the range of doubles, or for the
doubles that are no numbers when times are rational.
-/

namespace SharedLink

/-- Times with their arithmetic, their order, and the way they are obtained from
quantities and written. -/
class Timescale (τ : Type) extends Add τ, Sub τ, Mul τ, Div τ, LT τ, LE τ where
  /-- the time of a whole number of units -/
  ofNat : Nat → τ
  /-- the time nearest to a quantity -/
  ofQuantity? : Quantity → Option τ
  /-- the time nearest to a quotient -/
  quotient? : Quantity → Quantity → Option τ
  /-- a time as text -/
  write : τ → String
  /-- the order is decidable -/
  decideLT (a b : τ) : Decidable (a < b)
  /-- so is the weak order -/
  decideLE (a b : τ) : Decidable (a ≤ b)

namespace Timescale

variable {τ : Type} [Timescale τ]

instance (a b : τ) : Decidable (a < b) := decideLT a b

instance (a b : τ) : Decidable (a ≤ b) := decideLE a b

instance (priority := low) (n : Nat) : OfNat τ n := ⟨ofNat n⟩

/-- The larger of two times; the first unless the second is strictly larger. -/
def larger (a b : τ) : τ := if a < b then b else a

/-- The smaller of two times; the first unless the second is strictly smaller. -/
def smaller (a b : τ) : τ := if b < a then b else a

/-- The largest time of a list, the earliest one among equals; `default` for the
empty list. -/
def largest (default : τ) : List τ → τ
  | [] => default
  | t :: ts => ts.foldl larger t

/-- Neither of two times is before the other. -/
def same (a b : τ) : Bool := decide (a ≤ b) && decide (b ≤ a)

end Timescale

/-- Times in doubles: every operation rounds to nearest. -/
instance : Timescale Float where
  ofNat n := OfNat.ofNat n
  ofQuantity? := Quantity.toDouble?
  quotient? := Quantity.quotient?
  write := Quantity.style.write
  decideLT _ _ := inferInstance
  decideLE _ _ := inferInstance

/-- Exact times. -/
instance : Timescale Rat where
  ofNat n := n
  ofQuantity? := Quantity.toRat?
  quotient? a b := do
    let b ← b.toRat?
    if b = 0 then none else return (← a.toRat?) / b
  write t := if t.den = 1 then Decimal.ofInt t.num else Decimal.ofInt t.num ++ "/" ++ Decimal.ofNat t.den
  decideLT _ _ := inferInstance
  decideLE _ _ := inferInstance

end SharedLink
