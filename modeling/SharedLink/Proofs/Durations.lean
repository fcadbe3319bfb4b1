import Mathlib.Data.Nat.Cast.Order.Ring
import SharedLink.Proofs.Placement
import SharedLink.Proofs.Signs

/-!
# SharedLink.Proofs.Durations

What the checked arguments say of the durations.

A host makes progress and a file has no negative size, so no platform computes at a
speed of zero or below, and no transfer takes a negative time; the mean bandwidth is
one at least.  Any of them may be infinite or NaN.

* `speed_pos`, `meanBandwidth_pos` — nothing is divided by zero;
* `transferTime_nonneg` — no transfer takes a negative time;
* `Mean.pairwise_induction`, `compTime_nonneg` — in exact arithmetic no computation does
  either, unless its length is negative;
* `exists_cost_iff` — a cost is in range just if its parts are.
-/

namespace SharedLink

open Timescale

/-! ## sizes -/

namespace Quantity

/-- Of quantities that are not negative the sum is not negative. -/
theorem add_nonneg {a b c : Quantity} (ha : a.isNegative = false) (hb : b.isNegative = false)
    (h : a.add? b = some c) : c.isNegative = false := by
  have rounded {x y : Float} (hx : a.toDouble? = some x) (hy : b.toDouble? = some y) :
      (double (x + y)).isNegative = false :=
    decide_eq_false (Timescale.add_nonneg (Binary64.toDouble_nonneg ha hx)
      (Binary64.toDouble_nonneg hb hy))
  unfold add? at h
  split at h
  · next m n =>
      have hm : ¬m < 0 := of_decide_eq_false ha
      have hn : ¬n < 0 := of_decide_eq_false hb
      rw [← Option.some.inj h]
      exact decide_eq_false (by omega)
  · simp only [bind, Option.bind_eq_some_iff, pure, Option.some.injEq] at h
    obtain ⟨x, hx, y, hy, rfl⟩ := h
    exact rounded hx hy

theorem foldlM_add_nonneg {qs : List Quantity} {start q : Quantity}
    (hstart : start.isNegative = false) (hqs : ∀ q ∈ qs, q.isNegative = false)
    (h : qs.foldlM add? start = some q) : q.isNegative = false := by
  induction qs generalizing start with
  | nil =>
      rw [← Option.some.inj h]
      exact hstart
  | cons p qs ih =>
      obtain ⟨hp, hqs⟩ := List.forall_mem_cons.mp hqs
      rw [List.foldlM_cons] at h
      obtain ⟨mid, hmid, h⟩ := Option.bind_eq_some_iff.mp h
      exact ih (add_nonneg hstart hp hmid) hqs h

theorem sum_nonneg {qs : List Quantity} {q : Quantity} (hqs : ∀ q ∈ qs, q.isNegative = false)
    (h : sum? qs = some q) : q.isNegative = false := foldlM_add_nonneg rfl hqs h

end Quantity

/-- No task puts out fewer than no bytes. -/
theorem Task.outputSize_nonneg {t : Task} {size : Quantity} (h : t.outputSize = .ok size) :
    size.isNegative = false := by
  unfold outputSize at h
  split at h
  · next size' hsum =>
      rw [← Except.ok.inj h]
      refine Quantity.sum_nonneg (fun q hq => ?_) hsum
      obtain ⟨file, -, rfl⟩ := List.mem_map.mp hq
      exact file.size_nonneg
  · cases h

/-! ## means -/

namespace Mean

variable {τ : Type} [Timescale τ] {r : τ → Prop}

theorem foldl_add_induction (hadd : ∀ {a b}, r a → r b → r (a + b)) {xs : List τ} {a : τ}
    (ha : r a) (hxs : ∀ x ∈ xs, r x) : r (xs.foldl (· + ·) a) :=
  List.foldlRecOn xs _ ha fun _ hb x hx => hadd hb (hxs x hx)

theorem leftToRight_induction (hzero : r 0) (hadd : ∀ {a b}, r a → r b → r (a + b)) {xs : List τ}
    (hxs : ∀ x ∈ xs, r x) : r (leftToRight xs) := by
  cases xs with
  | nil => exact hzero
  | cons x xs =>
      obtain ⟨hx, hxs⟩ := List.forall_mem_cons.mp hxs
      exact foldl_add_induction hadd hx hxs

theorem combine_induction (hzero : r 0) (hadd : ∀ {a b}, r a → r b → r (a + b)) {xs : List τ}
    (hxs : ∀ x ∈ xs, r x) : r (combine xs) := by
  unfold combine
  split
  · simp only [List.forall_mem_cons] at hxs
    obtain ⟨ha, hb, hc, hd, he, hf, hg, hh, -⟩ := hxs
    exact hadd (hadd (hadd ha hb) (hadd hc hd)) (hadd (hadd he hf) (hadd hg hh))
  · exact leftToRight_induction hzero hadd hxs

theorem interleaved_induction (hzero : r 0) (hadd : ∀ {a b}, r a → r b → r (a + b)) (rows : Nat)
    {sums xs : List τ} (hsums : ∀ x ∈ sums, r x) (hxs : ∀ x ∈ xs, r x) :
    r (interleaved rows sums xs) := by
  induction rows generalizing sums xs with
  | zero => exact foldl_add_induction hadd (combine_induction hzero hadd hsums) hxs
  | succ rows ih =>
      refine ih (fun x hx => ?_) fun x hx => hxs x (List.mem_of_mem_drop hx)
      rw [← List.map_uncurry_zip_eq_zipWith] at hx
      obtain ⟨⟨a, b⟩, hmem, rfl⟩ := List.mem_map.mp hx
      obtain ⟨ha, hb⟩ := List.of_mem_zip hmem
      exact hadd (hsums a ha) (hxs b (List.mem_of_mem_take hb))

/-- **Pairwise sums**: what holds of zero and of all times of a list, and is kept by sums,
holds of their pairwise sum. -/
theorem pairwise_induction (hzero : r 0) (hadd : ∀ {a b}, r a → r b → r (a + b)) {xs : List τ}
    (hxs : ∀ x ∈ xs, r x) : r (pairwise xs) := by
  induction xs using pairwise.induct with
  | case1 xs hfew =>
      rw [pairwise, if_pos hfew]
      exact leftToRight_induction hzero hadd hxs
  | case2 xs hfew hmany =>
      rw [pairwise, if_neg hfew, if_pos hmany]
      exact interleaved_induction hzero hadd _ (fun x hx => hxs x (List.mem_of_mem_take hx))
        fun x hx => hxs x (List.mem_of_mem_drop hx)
  | case3 xs hfew hmany half ihfront ihbehind =>
      rw [pairwise, if_neg hfew, if_neg hmany]
      exact hadd (ihfront fun x hx => hxs x (List.mem_of_mem_take hx))
        (ihbehind fun x hx => hxs x (List.mem_of_mem_drop hx))

/-- In exact arithmetic the mean of what is not negative is not negative. -/
theorem mean_nonneg {xs : List Rat} (hxs : ∀ x ∈ xs, 0 ≤ x) : 0 ≤ mean xs := by
  have hsum : (0 : Rat) ≤ pairwise xs := pairwise_induction Rat.le_refl Rat.add_nonneg hxs
  have hcount : (0 : Rat) ≤ xs.length := Nat.cast_nonneg _
  exact div_nonneg (Rat.add_nonneg Rat.le_refl hsum) hcount

end Mean

/-! ## speeds and bandwidths -/

variable {τ : Type} [Timescale τ]

theorem timeOf_eq_ok_iff {q : Quantity} {t : τ} : timeOf τ q = .ok t ↔ ofQuantity? q = some t := by
  unfold timeOf
  cases (ofQuantity? q : Option τ) with
  | none => simp
  | some u => simp

/-- A quantity that is no time is out of range. -/
theorem timeOf_eq_error_iff {q : Quantity} {fault : Fault} :
    timeOf τ q = .error fault ↔ (ofQuantity? q : Option τ) = none ∧ fault = .overflow := by
  unfold timeOf
  cases (ofQuantity? q : Option τ) with
  | none => simp [eq_comm]
  | some u => simp

/-- A host that planning can convert: its speed and its bandwidth are times, and it
has a count of cores. -/
structure Host.Converts (τ : Type) [Timescale τ] (h : Host) : Prop where
  speed : ∃ t : τ, ofQuantity? h.speed = some t
  bandwidth : ∃ t : τ, ofQuantity? h.bandwidth = some t
  cores : ∃ n, coreCount h.cores = .ok n

namespace Platform

/-- There is a platform of some hosts just if each of them can be converted. -/
theorem exists_ofHosts_iff {hosts : List Host} :
    (∃ p, ofHosts τ hosts = .ok p) ↔ ∀ h ∈ hosts, h.Converts τ := by
  constructor
  · intro ⟨p, hp⟩ h hh
    unfold ofHosts at hp
    simp only [bind_eq_ok_iff] at hp
    obtain ⟨speeds, hspeeds, bandwidths, hbandwidths, cores, hcores, -⟩ := hp
    obtain ⟨speed, -, hspeed⟩ := exists_mem_of_mapM hspeeds hh
    obtain ⟨bandwidth, -, hbandwidth⟩ := exists_mem_of_mapM hbandwidths hh
    obtain ⟨count, -, hcount⟩ := exists_mem_of_mapM hcores hh
    exact ⟨⟨speed, timeOf_eq_ok_iff.mp hspeed⟩, ⟨bandwidth, timeOf_eq_ok_iff.mp hbandwidth⟩,
      ⟨count, hcount⟩⟩
  · intro hconverts
    have hspeed (h : Host) (hh : h ∈ hosts) : ∃ t, timeOf τ h.speed = .ok t :=
      (hconverts h hh).speed.imp fun _ => timeOf_eq_ok_iff.mpr
    have hbandwidth (h : Host) (hh : h ∈ hosts) : ∃ t, timeOf τ h.bandwidth = .ok t :=
      (hconverts h hh).bandwidth.imp fun _ => timeOf_eq_ok_iff.mpr
    obtain ⟨speeds, hspeeds⟩ := exists_mapM hspeed
    obtain ⟨bandwidths, hbandwidths⟩ := exists_mapM hbandwidth
    obtain ⟨cores, hcores⟩ := exists_mapM fun h hh => (hconverts h hh).cores
    refine ⟨⟨List.zipWith Machine.mk speeds cores, bandwidths⟩, ?_⟩
    unfold ofHosts
    simp only [bind_eq_ok_iff]
    exact ⟨speeds, hspeeds, bandwidths, hbandwidths, cores, hcores, rfl⟩

/-- The speed of a machine is that of a host. -/
theorem exists_host_of_machine {hosts : List Host} {p : Platform τ} (h : ofHosts τ hosts = .ok p)
    {m : Machine τ} (hm : m ∈ p.machines) :
    ∃ host ∈ hosts, ofQuantity? host.speed = some m.speed := by
  unfold ofHosts at h
  simp only [bind_eq_ok_iff] at h
  obtain ⟨speeds, hspeeds, bandwidths, -, cores, -, h⟩ := h
  rw [← Except.ok.inj h] at hm
  dsimp only at hm
  rw [← List.map_uncurry_zip_eq_zipWith] at hm
  obtain ⟨⟨speed, count⟩, hmem, rfl⟩ := List.mem_map.mp hm
  obtain ⟨host, hhost, hspeed⟩ := exists_source_of_mapM hspeeds (List.of_mem_zip hmem).1
  exact ⟨host, hhost, timeOf_eq_ok_iff.mp hspeed⟩

/-! ## costs -/

/-- A task whose cost is in range: its length is a time, unless no machine is eligible
for it, and so is the size of its output. -/
structure Affords (p : Platform τ) (t : Task) : Prop where
  length : p.eligible t ≠ [] → ∃ length : τ, ofQuantity? t.length = some length
  output : ∃ size, t.outputSize = .ok size ∧ ∃ bytes : τ, ofQuantity? size = some bytes

/-- Nothing but the length of a task decides whether there is a time for computing it. -/
theorem exists_compTime_iff {p : Platform τ} {t : Task} :
    (∃ comp, p.compTime t = .ok comp) ↔
      (p.eligible t ≠ [] → ∃ length : τ, ofQuantity? t.length = some length) := by
  unfold compTime
  dsimp only
  split
  · next hnone => exact iff_of_true ⟨_, rfl⟩ fun h => absurd (List.isEmpty_iff.mp hnone) h
  · next hsome =>
      have hsome : p.eligible t ≠ [] := fun h => hsome (List.isEmpty_iff.mpr h)
      simp only [bind_eq_ok_iff, pure_eq_ok_iff, timeOf_eq_ok_iff]
      constructor
      · intro ⟨_, length, hlength, _⟩ _
        exact ⟨length, hlength⟩
      · intro h
        obtain ⟨length, hlength⟩ := h hsome
        exact ⟨_, length, hlength, rfl⟩

/-- Nothing but the size of its output decides whether there is one for sending it. -/
theorem exists_transferTime_iff {p : Platform τ} {t : Task} :
    (∃ transfer, p.transferTime t = .ok transfer) ↔
      ∃ size, t.outputSize = .ok size ∧ ∃ bytes : τ, ofQuantity? size = some bytes := by
  unfold transferTime
  simp only [bind_eq_ok_iff, pure_eq_ok_iff, timeOf_eq_ok_iff]
  constructor
  · intro ⟨_, size, hsize, bytes, hbytes, _⟩
    exact ⟨size, hsize, bytes, hbytes⟩
  · intro ⟨size, hsize, bytes, hbytes⟩
    exact ⟨_, size, hsize, bytes, hbytes, rfl⟩

/-- There is a cost of a task just if it is in range. -/
theorem exists_cost_iff {p : Platform τ} {t : Task} :
    (∃ cost, p.cost t = .ok cost) ↔ p.Affords t := by
  have hparts : (∃ cost, p.cost t = .ok cost) ↔
      (∃ comp, p.compTime t = .ok comp) ∧ ∃ transfer, p.transferTime t = .ok transfer := by
    unfold cost
    simp only [bind_eq_ok_iff, pure_eq_ok_iff]
    constructor
    · intro ⟨_, comp, hcomp, transfer, htransfer, _⟩
      exact ⟨⟨comp, hcomp⟩, ⟨transfer, htransfer⟩⟩
    · intro ⟨⟨comp, hcomp⟩, ⟨transfer, htransfer⟩⟩
      exact ⟨_, comp, hcomp, transfer, htransfer, rfl⟩
  rw [hparts, exists_compTime_iff, exists_transferTime_iff]
  exact ⟨fun h => ⟨h.1, h.2⟩, fun h => ⟨h.length, h.output⟩⟩

instance decidableAffords (p : Platform τ) (t : Task) : Decidable (p.Affords t) :=
  match h : p.cost t with
  | .ok cost => .isTrue (exists_cost_iff.mp ⟨cost, h⟩)
  | .error _ => .isFalse fun hrange => by
      obtain ⟨cost, hcost⟩ := exists_cost_iff.mpr hrange
      rw [h] at hcost
      cases hcost

/-- There is no other fault in the time for computing a task than that it is out of range. -/
theorem eq_overflow_of_compTime {p : Platform τ} {t : Task} {fault : Fault}
    (h : p.compTime t = .error fault) : fault = .overflow := by
  unfold compTime at h
  dsimp only at h
  split at h
  · cases h
  · rcases bind_eq_error_iff.mp h with hlength | ⟨length, -, h⟩
    · exact (timeOf_eq_error_iff.mp hlength).2
    · cases h

/-- Nor is there in the time for sending it. -/
theorem eq_overflow_of_transferTime {p : Platform τ} {t : Task} {fault : Fault}
    (h : p.transferTime t = .error fault) : fault = .overflow := by
  unfold transferTime at h
  rcases bind_eq_error_iff.mp h with hsize | ⟨size, -, h⟩
  · unfold Task.outputSize at hsize
    split at hsize
    · cases hsize
    · exact (Except.error.inj hsize).symm
  · rcases bind_eq_error_iff.mp h with hbytes | ⟨bytes, -, h⟩
    · exact (timeOf_eq_error_iff.mp hbytes).2
    · cases h

/-- So there is none in its cost. -/
theorem eq_overflow_of_cost {p : Platform τ} {t : Task} {fault : Fault}
    (h : p.cost t = .error fault) : fault = .overflow := by
  unfold cost at h
  rcases bind_eq_error_iff.mp h with hcomp | ⟨comp, -, h⟩
  · exact eq_overflow_of_compTime hcomp
  · rcases bind_eq_error_iff.mp h with htransfer | ⟨transfer, -, h⟩
    · exact eq_overflow_of_transferTime htransfer
    · cases h

/-! ## signs -/

variable [Arithmetic τ]

/-- Machines make progress. -/
theorem speed_pos {hosts : List Host} {p : Platform τ} (h : ofHosts τ hosts = .ok p)
    {m : Machine τ} (hm : m ∈ p.machines) : ¬m.speed ≤ 0 := by
  obtain ⟨host, -, hspeed⟩ := exists_host_of_machine h hm
  exact Arithmetic.ofQuantity_pos host.valid.1 hspeed

/-- So does the link. -/
theorem meanBandwidth_pos (p : Platform τ) : ¬p.meanBandwidth ≤ 0 := by
  have hone : ¬(1 : τ) ≤ 0 := (Ordered.lt_iff.mp Arithmetic.zero_lt_one).2
  unfold meanBandwidth
  split
  · exact hone
  · unfold larger
    split
    · exact hone
    · next hmean => exact not_le_zero_of_not_lt_one hmean

/-- No transfer takes a negative time. -/
theorem transferTime_nonneg {p : Platform τ} {t : Task} {d : τ} (h : p.transferTime t = .ok d) :
    ¬d < 0 := by
  unfold transferTime at h
  simp only [bind_eq_ok_iff, pure_eq_ok_iff] at h
  obtain ⟨size, hsize, bytes, hbytes, rfl⟩ := h
  have hbytes : ¬bytes < 0 :=
    Arithmetic.ofQuantity_nonneg (Task.outputSize_nonneg hsize) (timeOf_eq_ok_iff.mp hbytes)
  have hbits : ¬(bitsPerByte : τ) < 0 := not_lt_of_le Arithmetic.zero_le_eight
  exact Arithmetic.div_nonneg (Arithmetic.mul_nonneg hbytes hbits) p.meanBandwidth_pos

omit [Arithmetic τ] in
/-- In exact arithmetic no computation takes a negative time, unless its length is negative. -/
theorem compTime_nonneg {hosts : List Host} {p : Platform Rat} (h : ofHosts Rat hosts = .ok p)
    {t : Task} (hlength : t.length.isNegative = false) {comp : Rat}
    (hcomp : p.compTime t = .ok comp) : 0 ≤ comp := by
  unfold compTime at hcomp
  dsimp only at hcomp
  split at hcomp
  · rw [← Except.ok.inj hcomp]
    exact Rat.le_of_lt Arithmetic.zero_lt_one
  · obtain ⟨length, htime, hcomp⟩ := bind_eq_ok_iff.mp hcomp
    have htime : 0 ≤ length := Quantity.toRat_nonneg hlength (timeOf_eq_ok_iff.mp htime)
    rw [← Except.ok.inj hcomp]
    refine Mean.mean_nonneg fun time hmem => ?_
    obtain ⟨m, hm, rfl⟩ := List.mem_map.mp hmem
    have hspeed : 0 < m.speed := not_le.mp (speed_pos h (List.mem_filter.mp hm).1)
    exact div_nonneg htime (Rat.le_of_lt hspeed)

end Platform

end SharedLink
