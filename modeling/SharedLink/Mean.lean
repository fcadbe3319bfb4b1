import SharedLink.Timescale

/-!
# SharedLink.Mean

The mean of a list of times, by pairwise summation.

Up to seven times are added from left to right, up to 128 in eight interleaved
sums that are then combined, and longer lists are cut near the middle, at a
multiple of eight.  In exact arithmetic all this is the plain sum.
-/

namespace SharedLink

namespace Mean

variable {τ : Type} [Timescale τ]

/-- From left to right. -/
def leftToRight : List τ → τ
  | [] => 0
  | x :: xs => xs.foldl (· + ·) x

/-- Eight times as four pairs, the pairs as two, and those two. -/
def combine : List τ → τ
  | [a, b, c, d, e, f, g, h] => ((a + b) + (c + d)) + ((e + f) + (g + h))
  | xs => leftToRight xs

/-- Eight sums over every eighth element, combined, then the elements that do not
fill a row of eight.  `rows` counts the full rows to come. -/
def interleaved : (rows : Nat) → (sums : List τ) → List τ → τ
  | 0, sums, rest => rest.foldl (· + ·) (combine sums)
  | rows + 1, sums, rest =>
    interleaved rows (List.zipWith (· + ·) sums (rest.take 8)) (rest.drop 8)

/-- The pairwise sum. -/
def pairwise (xs : List τ) : τ :=
  if xs.length < 8 then leftToRight xs
  else if xs.length ≤ 128 then interleaved (xs.length / 8 - 1) (xs.take 8) (xs.drop 8)
  else
    let half := xs.length / 2 - xs.length / 2 % 8
    pairwise (xs.take half) + pairwise (xs.drop half)
termination_by xs.length
decreasing_by all_goals (simp only [List.length_take, List.length_drop]; omega)

/-- The mean of a list with at least one element. -/
def mean (xs : List τ) : τ := (0 + pairwise xs) / Timescale.ofNat xs.length

end Mean

end SharedLink
