import SharedLink.Fault
import SharedLink.Sorting
import SharedLink.Timescale

/-!
# SharedLink.Timeline

The reservations of the shared link.

Only one transfer can use the link at a time.  A timeline holds the intervals
for which it is taken, in the order of their starts and then of their stops.
Reserving does not look for collisions: whoever reserves asks for a gap first.

* `perm_reserve` — a reservation adds its interval and nothing else;
* `reserve_eq_error_iff` — it fails just if the interval stops before it starts.
-/

namespace SharedLink

variable {τ : Type}

/-- From `start` up to `stop`. -/
structure Interval (τ : Type) where
  start : τ
  stop : τ
deriving DecidableEq, Repr

/-- The intervals for which the link is taken. -/
structure Timeline (τ : Type) where
  intervals : List (Interval τ)
deriving DecidableEq, Repr

namespace Timeline

variable [Timescale τ]

/-- By starts, then by stops. -/
def before (a b : Interval τ) : Bool :=
  if Timescale.same a.start b.start then decide (a.stop < b.stop) else decide (a.start < b.start)

/-- No reservations. -/
def empty : Timeline τ := ⟨[]⟩

/-- Given reservations, in any order. -/
def ofList (intervals : List (Interval τ)) : Timeline τ := ⟨sortBy before intervals⟩

/-- Reserve the link from `start` to `stop`. -/
def reserve (t : Timeline τ) (start stop : τ) : Except Fault (Timeline τ) :=
  if stop < start then .error (.reversedInterval (Timescale.write start) (Timescale.write stop))
  else .ok ⟨insertRight before ⟨start, stop⟩ t.intervals⟩

/-- Push a candidate behind every reservation that it cannot finish before. -/
def gapFrom (duration : τ) (candidate : τ) : List (Interval τ) → τ
  | [] => candidate
  | i :: rest =>
    if candidate + duration ≤ i.start then candidate
    else gapFrom duration (Timescale.larger candidate i.stop) rest

/-- The earliest time from `after` on at which the link stays free for `duration`. -/
def earliestGap (t : Timeline τ) (after duration : τ) : τ := gapFrom duration after t.intervals

/-- The largest overlap of one interval with those behind it, and `best`.  Starts
only grow, so the first one at or behind `stop` ends the search. -/
def overlapWith (stop : τ) (best : τ) : List (Interval τ) → τ
  | [] => best
  | i :: rest =>
    if stop ≤ i.start then best
    else overlapWith stop (Timescale.larger best (Timescale.smaller stop i.stop - i.start)) rest

/-- The largest overlap of two intervals of a list, and `best`. -/
def overlapAmong (best : τ) : List (Interval τ) → τ
  | [] => best
  | i :: rest => overlapAmong (overlapWith i.stop best rest) rest

/-- The largest overlap of two reservations, zero if there is none. -/
def maxOverlap (t : Timeline τ) : τ := overlapAmong 0 t.intervals

/-! ## what a reservation changes -/

/-- A reservation adds its interval and nothing else. -/
theorem perm_reserve {t t' : Timeline τ} {start stop : τ} (h : t.reserve start stop = .ok t') :
    t'.intervals.Perm (⟨start, stop⟩ :: t.intervals) := by
  simp only [reserve] at h
  split at h
  · cases h
  · cases h
    exact perm_insertRight _ _ _

/-- A reservation fails just if the interval stops before it starts. -/
theorem reserve_eq_error_iff {t : Timeline τ} {start stop : τ} :
    (∃ fault, t.reserve start stop = .error fault) ↔ stop < start := by
  simp only [reserve]
  split <;> simp_all

end Timeline

end SharedLink
