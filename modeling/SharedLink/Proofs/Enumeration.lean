import Mathlib.Data.List.FinRange
import Mathlib.Data.Nat.Factorial.Basic
import SharedLink.Proofs.Permutations

/-!
# SharedLink.Proofs.Enumeration

How often each ordering of a list comes.

The swaps that bring another element to a place give different arrangements, whatever is
done to the places after it, as long as the elements themselves are different.  So it is
the positions of a list that are enumerated without repetition: a list in which elements
repeat is ordered by ordering its positions and looking up what stands there.

* `length_arrangements` — how many orderings there are;
* `map_arrangements` — what the elements are does not matter;
* `nodup_arrangements` — different elements are ordered in different ways;
* `OrdersPositions` — the orderings of the positions of a list that keep the first ones;
* `enumerates_orderingsFrom` — they come once each, and the list is left as it was.
-/

namespace SharedLink

variable {α β : Type} {work : List α} {start count : Nat}

/-! ## counting -/

/-- There are as many orderings as the places can be filled in. -/
theorem length_arrangements (places : List Nat) (work : List α) :
    (arrangements places work).1.length = places.length.factorial := by
  induction places generalizing work with
  | nil => rfl
  | cons here places ih =>
      rw [arrangements_cons_fst, List.length_flatMap]
      simp only [ih]
      rw [List.map_const', List.sum_replicate_nat, List.length_cons, Nat.factorial_succ]

/-! ## positions and elements -/

/-- Places are swapped whatever stands there. -/
theorem map_swap (f : α → β) (xs : List α) (i j : Nat) :
    swap (xs.map f) i j = (swap xs i j).map f := by
  unfold swap
  rw [List.getElem?_map, List.getElem?_map]
  cases xs[i]? with
  | none => rfl
  | some x =>
      cases xs[j]? with
      | none => rfl
      | some y =>
          dsimp only [Option.map_some]
          rw [List.map_set, List.map_set]

/-- Orderings of images are images of orderings. -/
theorem map_arrangements (f : α → β) (places : List Nat) (work : List α) :
    (arrangements places (work.map f)).1 = (arrangements places work).1.map (List.map f) := by
  induction places generalizing work with
  | nil => rfl
  | cons here places ih =>
      rw [arrangements_cons_fst, arrangements_cons_fst, List.map_flatMap]
      simp only [map_swap, ih]

/-! ## no repetition -/

/-- Filling a place with different elements leads to different orderings. -/
theorem disjoint_of_swaps {there other : Nat} (hlength : start + (count + 1) = work.length)
    (hnodup : work.Nodup) (hthere : start ≤ there ∧ there < work.length)
    (hother : start ≤ other ∧ other < work.length) (hne : there ≠ other) :
    (arrangements (List.range' (start + 1) count) (swap work start there)).1.Disjoint
      (arrangements (List.range' (start + 1) count) (swap work start other)).1 := by
  intro order horder horder'
  have hnext {place : Nat} (hplace : start ≤ place ∧ place < work.length)
      (h : order ∈ (arrangements (List.range' (start + 1) count) (swap work start place)).1) :
      order[start]? = work[place]? := by
    obtain ⟨hperm, htake⟩ := (mem_arrangements_iff (by rw [length_swap]; omega)).mp h
    have hsame : order.length = work.length := (hperm.trans (perm_swap ..)).length_eq
    exact ((take_eq_take_swap_iff hsame hplace.1 hplace.2).mp htake).2
  refine hne ((List.getElem?_inj hthere.2 hnodup).mp ?_)
  rw [← hnext hthere horder, hnext hother horder']

/-- **No ordering is repeated** if the elements are different. -/
theorem nodup_arrangements (hlength : start + count = work.length) (hnodup : work.Nodup) :
    (arrangements (List.range' start count) work).1.Nodup := by
  induction count generalizing start work with
  | zero => exact List.nodup_singleton work
  | succ count ih =>
      rw [List.range'_succ, arrangements_cons_fst, ← List.range'_succ, List.nodup_flatMap]
      have hlater {there : Nat} (h : there ∈ List.range' start (count + 1)) :
          start ≤ there ∧ there < work.length := by
        rw [List.mem_range'_1] at h
        omega
      refine ⟨fun there _ => ?_, ?_⟩
      · exact ih (by rw [length_swap]; omega) ((perm_swap work start there).nodup_iff.mpr hnodup)
      · refine List.Pairwise.imp_of_mem (fun {there other} hthere hother hne => ?_)
          (List.nodup_range' : (List.range' start (count + 1)).Nodup)
        exact disjoint_of_swaps hlength hnodup (hlater hthere) (hlater hother) hne

/-! ## orderings of positions -/

/-- The orderings of the positions of a list that keep the first `start` of them, each of them
once, the positions as they are coming first. -/
structure OrdersPositions (length start : Nat) (orders : List (List (Fin length))) : Prop where
  count : orders.length = (length - start).factorial
  distinct : orders.Nodup
  exact : ∀ order, order ∈ orders ↔
    order.Perm (List.finRange length) ∧
      order.take start = (List.finRange length).take start
  first : orders.head? = some (List.finRange length)

/-- The places that are filled are those from `start` on. -/
theorem placesFrom_natCast (length start : Nat) :
    placesFrom length start = List.range' start (length - start) := by
  unfold placesFrom
  rw [if_neg (by omega), Int.toNat_natCast, List.range_eq_range', List.drop_range']
  simp

/-- Filling the places from `start` on enumerates the orderings of the positions. -/
theorem enumerates_arrangements {length : Nat} (hstart : start ≤ length) :
    OrdersPositions length start
      (arrangements (placesFrom length start) (List.finRange length)).1 := by
  have hlength : start + (length - start) = (List.finRange length).length := by
    rw [List.length_finRange]
    omega
  refine ⟨?_, ?_, fun order => ?_, head?_arrangements _ _⟩
  · rw [length_arrangements, placesFrom_natCast, List.length_range']
  · rw [placesFrom_natCast]
    exact nodup_arrangements hlength (List.nodup_finRange length)
  · rw [placesFrom_natCast]
    exact mem_arrangements_iff hlength

/-- **Enumeration**: from any place of a list on, the orderings of its positions that keep those
in front of the place come once each, the list itself first, and the list is left as it was.
Behind its end there are none. -/
theorem enumerates_orderingsFrom (items : List α) (start : Nat) :
    (start ≤ items.length → ∃ orders : List (List (Fin items.length)),
      OrdersPositions items.length start orders ∧
        orderingsFrom start items = .ok (orders.map (·.map items.get), items)) ∧
      (items.length < start → orderingsFrom start items = .ok ([], items)) := by
  have hfront : ¬(start : Int) < -items.length := by omega
  constructor
  · intro hstart
    refine ⟨_, enumerates_arrangements hstart, ?_⟩
    have hitems : (List.finRange items.length).map items.get = items := List.map_get_finRange items
    unfold orderingsFrom
    rw [if_neg hfront, if_neg (by omega), ← map_arrangements, hitems]
    exact congrArg Except.ok (Prod.ext rfl (arrangements_snd _ _))
  · intro hbehind
    unfold orderingsFrom
    rw [if_neg hfront, if_pos (by omega)]

/-- Of three letters the last two are the same: with the first one in its place there are two
orderings of the positions, which give the same letters, and behind the last one there is none. -/
theorem enumerates_letters :
    (∃ orders : List (List (Fin 3)), OrdersPositions 3 1 orders ∧
      orders.map (·.map ['a', 'b', 'b'].get) = [['a', 'b', 'b'], ['a', 'b', 'b']]) ∧
      orderingsFrom 4 ['a', 'b', 'b'] = .ok ([], ['a', 'b', 'b']) := by
  obtain ⟨orders, horders, hresult⟩ :=
    (enumerates_orderingsFrom ['a', 'b', 'b'] 1).1 (by decide)
  have hletters : orderingsFrom 1 ['a', 'b', 'b'] =
      .ok ([['a', 'b', 'b'], ['a', 'b', 'b']], ['a', 'b', 'b']) := by decide
  refine ⟨⟨orders, horders, ?_⟩, (enumerates_orderingsFrom ['a', 'b', 'b'] 4).2 (by decide)⟩
  exact congrArg Prod.fst (Except.ok.inj (hresult.symm.trans hletters))

end SharedLink
