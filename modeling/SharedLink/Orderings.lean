import SharedLink.Fault

/-!
# SharedLink.Orderings

All orderings of a list, in swap order.

One working arrangement is kept, and its places are filled in turn.  The element
at a place is swapped with itself and with that of every place still to come, the
places after it are filled, and the swap is undone before the next.  For three
items the orderings come as 012, 021, 102, 120, 210, 201.

Places may also be counted from the end.  Then the last places are filled before
all of them are, and the same ordering comes more than once.

* `orderingsFrom_zero` — all orderings are those from the first place on;
* `length_swap` — swapping keeps the length;
* `swap_swap` — a swap undoes itself.
-/

namespace SharedLink

variable {α : Type}

/-- A list with the elements at two places exchanged. -/
def swap (xs : List α) (i j : Nat) : List α :=
  match xs[i]?, xs[j]? with
  | some x, some y => (xs.set i y).set j x
  | _, _ => xs

/-- The orderings of a working arrangement that are had by filling some places in
turn, and the arrangement that is left behind.  The recursion goes one deeper with
each place, and no limit is set to its depth. -/
def arrangements : (places : List Nat) → List α → List (List α) × List α
  | [], work => ([work], work)
  | here :: places, work =>
    (here :: places).foldl
      (fun (out, work) there =>
        let (inner, work) := arrangements places (swap work here there)
        (out ++ inner, swap work here there))
      ([], work)

/-- The places of a list of `length` elements that are filled in turn from `start`
on.  A start below zero counts from the end, and goes on to all places. -/
def placesFrom (length : Nat) (start : Int) : List Nat :=
  if start < 0 then (List.range length).drop (length + start).toNat ++ List.range length
  else (List.range length).drop start.toNat

/-- The orderings of a list that fill its places from `start` on, and the list as it
is afterwards.  There are none if the list ends before `start`; a start that lies
before the first place, counted from the end, is refused. -/
def orderingsFrom (start : Int) (items : List α) : Except Fault (List (List α) × List α) :=
  if start < -items.length then .error .noSuchPlace
  else if items.length < start then .ok ([], items)
  else .ok (arrangements (placesFrom items.length start) items)

/-- All orderings of a list. -/
def orderings (items : List α) : List (List α) :=
  (arrangements (List.range items.length) items).1

/-! ## places -/

/-- From place zero on, all places are filled. -/
@[simp] theorem placesFrom_zero (length : Nat) : placesFrom length 0 = List.range length := by
  simp [placesFrom]

/-- All orderings of a list are those that fill its places from the first on. -/
theorem orderingsFrom_zero (items : List α) :
    (orderingsFrom 0 items).map (·.1) = .ok (orderings items) := by
  have h : ¬(items.length : Int) < 0 := by omega
  simp [orderingsFrom, h, orderings, Except.map]

/-! ## swaps -/

/-- Swapping keeps the length. -/
@[simp] theorem length_swap (xs : List α) (i j : Nat) : (swap xs i j).length = xs.length := by
  simp only [swap]
  split <;> simp

/-- A swap exchanges two places and keeps the others. -/
theorem getElem?_swap {xs : List α} {i j : Nat} (hi : i < xs.length) (hj : j < xs.length)
    (k : Nat) :
    (swap xs i j)[k]? = if j = k then xs[i]? else if i = k then xs[j]? else xs[k]? := by
  simp only [swap, List.getElem?_eq_getElem hi, List.getElem?_eq_getElem hj, List.getElem?_set,
    List.length_set]
  split
  · simp
  · split
    · simp
    · rfl

/-- Nothing is swapped with a place that is not there. -/
theorem swap_of_le {xs : List α} {i j : Nat} (h : xs.length ≤ i ∨ xs.length ≤ j) :
    swap xs i j = xs := by
  rcases h with h | h <;> simp [swap, List.getElem?_eq_none h]

/-- A swap undoes itself. -/
theorem swap_swap (xs : List α) (i j : Nat) : swap (swap xs i j) i j = xs := by
  obtain hi | hi := Nat.lt_or_ge i xs.length
  · obtain hj | hj := Nat.lt_or_ge j xs.length
    · apply List.ext_getElem?
      intro k
      rw [getElem?_swap (by simpa using hi) (by simpa using hj), getElem?_swap hi hj,
        getElem?_swap hi hj, getElem?_swap hi hj]
      by_cases hik : i = k <;> by_cases hjk : j = k <;> simp_all
    · rw [swap_of_le (.inr hj), swap_of_le (.inr hj)]
  · rw [swap_of_le (.inl hi), swap_of_le (.inl hi)]

end SharedLink
