import SharedLink.Proofs.Vacancies

/-!
# SharedLink.Proofs.Requests

A timeline does not remember in which order it was reserved.

A reservation that stops before it starts is refused and changes nothing, so a row of
requests adds the intervals that can be reserved and keeps the order of intervals.  In
exact arithmetic different intervals never tie in that order, and only one list holds
given intervals in it.  Neither the order of the requests nor those that were refused can
be told from the timeline, nor whether it was sorted as a whole or filled one by one.

* `Timeline.requestAll` — a row of requests, some of them refused;
* `perm_requestAll`, `sorted_requestAll` — what it adds, and the order that it keeps;
* `eq_of_perm` — only one timeline holds given intervals in order;
* `requestAll_eq_of_perm` — the order of the requests does not matter.
-/

namespace SharedLink

open Timescale

namespace Timeline

section

variable {τ : Type} [Timescale τ] {t t' : Timeline τ} {i : Interval τ} {calls : List (Interval τ)}

/-- Ask for a reservation; a timeline that refuses it stays as it is. -/
def request (t : Timeline τ) (i : Interval τ) : Timeline τ :=
  match t.reserve i.start i.stop with
  | .ok t' => t'
  | .error _ => t

/-- Ask for one reservation after the other. -/
def requestAll (t : Timeline τ) (calls : List (Interval τ)) : Timeline τ := calls.foldl request t

/-- The requests that are not refused. -/
def accepted (calls : List (Interval τ)) : List (Interval τ) :=
  calls.filter fun i => !decide (i.stop < i.start)

/-- A timeline that was made from some intervals and then asked for further ones. -/
def IsMade (t : Timeline τ) : Prop := ∃ given calls, t = (ofList given).requestAll calls

/-! ## one request -/

/-- A request is refused just if it stops before it starts. -/
theorem request_eq (t : Timeline τ) (i : Interval τ) :
    t.request i = if i.stop < i.start then t else ⟨insertRight before i t.intervals⟩ := by
  unfold request reserve
  by_cases h : i.stop < i.start
  · rw [if_pos h, if_pos h]
  · rw [if_neg h, if_neg h]

theorem perm_request (t : Timeline τ) (i : Interval τ) :
    (t.request i).intervals.Perm (t.intervals ++ accepted [i]) := by
  rw [request_eq, accepted, List.filter_singleton]
  by_cases h : i.stop < i.start
  · simp [h]
  · simp only [h, if_false, decide_false, Bool.not_false, cond_true]
    exact (perm_insertRight before i t.intervals).trans (List.perm_append_singleton i _).symm

theorem sorted_request [Ordered τ] (hnum : t.IsNumeric) (hi : i.IsNumeric)
    (hsorted : Sorted before t.intervals) : Sorted before (t.request i).intervals := by
  rw [request_eq]
  split
  · exact hsorted
  · exact sorted_insertRight strictWeakOn_before hi hnum hsorted

/-! ## requests in a row -/

/-- **What a row of requests adds**: the intervals that can be reserved, and nothing else. -/
theorem perm_requestAll (t : Timeline τ) (calls : List (Interval τ)) :
    (t.requestAll calls).intervals.Perm (t.intervals ++ accepted calls) := by
  induction calls generalizing t with
  | nil =>
      rw [accepted, List.filter_nil, List.append_nil]
      exact .refl _
  | cons i calls ih =>
      have hsplit : accepted (i :: calls) = accepted [i] ++ accepted calls :=
        List.filter_append [i] calls
      rw [hsplit, ← List.append_assoc]
      exact (ih (t.request i)).trans ((perm_request t i).append_right _)

/-- It keeps the order of the intervals. -/
theorem sorted_requestAll [Ordered τ] (hnum : t.IsNumeric) (hcalls : ∀ i ∈ calls, i.IsNumeric)
    (hsorted : Sorted before t.intervals) : Sorted before (t.requestAll calls).intervals := by
  induction calls generalizing t with
  | nil => exact hsorted
  | cons i calls ih =>
      obtain ⟨hi, hcalls⟩ := List.forall_mem_cons.mp hcalls
      refine ih (fun j hj => ?_) hcalls (sorted_request hnum hi hsorted)
      cases List.mem_append.mp ((perm_request t i).mem_iff.mp hj) with
      | inl hj => exact hnum j hj
      | inr hj => rwa [List.mem_singleton.mp (List.mem_of_mem_filter hj)]

/-- If none of them is refused, the requests are reservations. -/
theorem reserveAll_eq_ok (t : Timeline τ) (hcalls : ∀ i ∈ calls, ¬i.stop < i.start) :
    t.reserveAll calls = .ok (t.requestAll calls) := by
  induction calls generalizing t with
  | nil => rfl
  | cons i calls ih =>
      obtain ⟨hi, hcalls⟩ := List.forall_mem_cons.mp hcalls
      have hone : t.reserve i.start i.stop = .ok (t.request i) := by
        rw [request_eq, if_neg hi]
        exact if_neg hi
      unfold reserveAll at ih ⊢
      rw [List.foldlM_cons, hone]
      exact ih (t.request i) hcalls

end

/-! ## exact times -/

section

variable {t t' : Timeline Rat} {calls calls' : List (Interval Rat)}

/-- Different intervals between exact times never tie. -/
theorem eq_of_before_eq_false {a b : Interval Rat} (hab : before b a = false)
    (hba : before a b = false) : a = b := by
  obtain ⟨hstart, hstop⟩ := (before_eq_false_iff a.isNumeric_rat b.isNumeric_rat).mp hab
  obtain ⟨hstart', hstop'⟩ := (before_eq_false_iff b.isNumeric_rat a.isNumeric_rat).mp hba
  have hstarts : a.start = b.start := Rat.le_antisymm hstart hstart'
  have hstops : a.stop = b.stop := Rat.le_antisymm (hstop hstart') (hstop' hstart)
  cases a
  cases b
  simp_all

/-- **Only one timeline** holds given intervals in order. -/
theorem eq_of_perm (h : t.intervals.Perm t'.intervals) (hsorted : Sorted before t.intervals)
    (hsorted' : Sorted before t'.intervals) : t = t' := by
  have heq : t.intervals = t'.intervals :=
    List.Perm.eq_of_pairwise (fun _ _ _ _ => eq_of_before_eq_false) hsorted hsorted' h
  cases t
  cases t'
  exact congrArg Timeline.mk heq

theorem sorted_ofList (is : List (Interval Rat)) : Sorted before (ofList is).intervals :=
  sorted_sortBy strictWeakOn_before fun i _ => i.isNumeric_rat

theorem IsMade.sorted (h : t.IsMade) : Sorted before t.intervals := by
  obtain ⟨given, calls, rfl⟩ := h
  exact sorted_requestAll (isNumeric_rat _) (fun i _ => i.isNumeric_rat)
    (sorted_ofList given)

/-- Making a timeline from some intervals is reserving them one by one, in any order. -/
theorem reserveAll_empty_eq_ofList {is order : List (Interval Rat)} (horder : order.Perm is)
    (his : ∀ i ∈ is, i.start ≤ i.stop) : empty.reserveAll order = .ok (ofList is) := by
  have haccepted : ∀ i ∈ order, ¬i.stop < i.start := fun i hi =>
    not_lt_of_le (his i (horder.mem_iff.mp hi))
  rw [reserveAll_eq_ok empty haccepted]
  refine congrArg Except.ok (eq_of_perm ?_ ?_ (sorted_ofList is))
  · refine (perm_reserveAll (reserveAll_eq_ok empty haccepted)).trans ?_
    exact horder.trans (perm_sortBy before is).symm
  · exact sorted_requestAll (isNumeric_rat _) (fun i _ => i.isNumeric_rat) .nil

/-- **Order of requests**: in exact arithmetic a timeline comes to the same reservations, and gives
the same answers, whatever the order of the requests that are accepted and whichever others are
refused in between; and to make one from some intervals is to reserve these one by one, in any
order. -/
theorem requestAll_eq_of_perm (ht : t.IsMade) (h : (accepted calls).Perm (accepted calls')) :
    (t.requestAll calls).intervals = (t.requestAll calls').intervals ∧
      (∀ after duration, (t.requestAll calls).earliestGap after duration =
        (t.requestAll calls').earliestGap after duration) ∧
      (t.requestAll calls).maxOverlap = (t.requestAll calls').maxOverlap ∧
      ∀ is order : List (Interval Rat), order.Perm is → (∀ i ∈ is, i.start ≤ i.stop) →
        empty.reserveAll order = .ok (ofList is) := by
  have hsorted (calls : List (Interval Rat)) : Sorted before (t.requestAll calls).intervals :=
    sorted_requestAll (isNumeric_rat _) (fun i _ => i.isNumeric_rat) ht.sorted
  have hperm : (t.requestAll calls).intervals.Perm (t.requestAll calls').intervals :=
    (perm_requestAll t calls).trans ((h.append_left _).trans (perm_requestAll t calls').symm)
  have hsame : t.requestAll calls = t.requestAll calls' :=
    eq_of_perm hperm (hsorted calls) (hsorted calls')
  rw [hsame]
  exact ⟨rfl, fun _ _ => rfl, rfl, fun _ _ => reserveAll_empty_eq_ofList⟩

/-- A timeline with one reservation. -/
def occupied : Timeline Rat := ofList [⟨2, 4⟩]

/-- Requests that start with it, and one between them that is refused. -/
def together : List (Interval Rat) := [⟨2, 5⟩, ⟨4, 1⟩, ⟨2, 3⟩]

/-- Whichever of the two is asked for first, it stands between them. -/
theorem requestAll_eq_together :
    occupied.IsMade ∧ (accepted together).Perm (accepted together.reverse) ∧
      (occupied.requestAll together).intervals =
        (occupied.requestAll together.reverse).intervals ∧
      (occupied.requestAll together).intervals = [⟨2, 3⟩, ⟨2, 4⟩, ⟨2, 5⟩] := by
  have hmade : occupied.IsMade := ⟨[⟨2, 4⟩], [], rfl⟩
  have hperm : (accepted together).Perm (accepted together.reverse) := by decide +kernel
  exact ⟨hmade, hperm, (requestAll_eq_of_perm hmade hperm).1, by decide +kernel⟩

end

end Timeline

end SharedLink
