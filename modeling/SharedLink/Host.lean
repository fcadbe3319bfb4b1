import SharedLink.Fault

/-!
# SharedLink.Host

Computing resources.

Speed is in units of task length per second, bandwidth in bits per second.  A
host takes one task at a time: it is busy from the moment a task is bound to it
until it is released.
-/

namespace SharedLink

/-- Whether a host can take a task. -/
inductive HostState where
  | idle
  | busy
deriving DecidableEq, Repr

/-- The name of a state. -/
def HostState.write : HostState → String
  | idle => "IDLE"
  | busy => "BUSY"

/-- A computing resource, with a speed above zero and no negative bandwidth; either
may be NaN. -/
structure Host where
  name : String
  speed : Quantity
  bandwidth : Quantity
  cores : Quantity
  state : HostState
  valid : speed.isAtMostZero = false ∧ bandwidth.isNegative = false := by decide
deriving DecidableEq, Repr

namespace Host

/-- An idle host, if its speed is positive and its bandwidth is not negative; the
speed counts first, and NaN passes as either. -/
def make (name : String) (speed bandwidth cores : Quantity) : Except Fault Host :=
  if hs : speed.isAtMostZero = true then .error (.speedNotPositive name speed)
  else if hb : bandwidth.isNegative = true then .error (.negativeBandwidth name bandwidth)
  else .ok {
    name, speed, bandwidth, cores
    state := .idle
    valid := by simp [hs, hb] }

/-- Whether a host can take a task. -/
def isIdle (h : Host) : Bool := h.state = .idle

/-- A host in short. -/
def write (h : Host) : String :=
  "Host(" ++ Text.quoted h.name ++ ", " ++ h.state.write ++ ")"

end Host

end SharedLink
