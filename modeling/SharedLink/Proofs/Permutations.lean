import Mathlib.Data.List.Perm.Basic
import SharedLink.Orderings

/-!
# SharedLink.Proofs.Permutations

Which orderings of a list there are.

Filling a place undoes every swap it makes, so that the same arrangement is left behind
as was there before, and every swap is one with an element of that arrangement.  From some
place on, all elements that are not in front of it come to stand there in turn.  So
filling the places after it gives every ordering that agrees up to it.

* `arrangements_snd` — the arrangement is left behind as it was;
* `arrangements_cons_fst` — the swaps for a place can be looked at one by one;
* `head?_orderings` — a list is its own first ordering;
* `mem_arrangements_iff`, `mem_orderings_iff` — no ordering is missed.
-/

namespace SharedLink

variable {α : Type} {work order : List α} {start there : Nat}

/-- A swap rearranges. -/
theorem perm_swap (xs : List α) (i j : Nat) : (swap xs i j).Perm xs := by
  obtain hi | hi := Nat.lt_or_ge i xs.length
  · obtain hj | hj := Nat.lt_or_ge j xs.length
    · simp only [swap, List.getElem?_eq_getElem hi, List.getElem?_eq_getElem hj]
      exact List.set_set_perm hi hj
    · rw [swap_of_le (.inr hj)]
  · rw [swap_of_le (.inl hi)]

/-- A swap of a place with itself changes nothing. -/
theorem swap_self (xs : List α) (i : Nat) : swap xs i i = xs := by
  obtain hi | hi := Nat.lt_or_ge i xs.length
  · simp [swap, List.getElem?_eq_getElem hi]
  · exact swap_of_le (.inl hi)

/-! ## one place -/

/-- A place is filled by one swap after the other, each from the same arrangement. -/
theorem foldl_swaps (places theres : List Nat) (here : Nat)
    (hrest : ∀ work : List α, (arrangements places work).2 = work) (out : List (List α)) :
    theres.foldl
        (fun (out, work) there =>
          let (inner, work) := arrangements places (swap work here there)
          (out ++ inner, swap work here there)) (out, work) =
      (out ++ theres.flatMap fun there => (arrangements places (swap work here there)).1,
        work) := by
  induction theres generalizing out with
  | nil => rw [List.foldl_nil, List.flatMap_nil, List.append_nil]
  | cons there theres ih =>
      rw [List.foldl_cons]
      dsimp only
      rw [hrest, swap_swap, ih, List.flatMap_cons, List.append_assoc]

/-- The arrangement is left behind as it was. -/
theorem arrangements_snd (places : List Nat) (work : List α) :
    (arrangements places work).2 = work := by
  induction places generalizing work with
  | nil => rfl
  | cons here places ih =>
      unfold arrangements
      rw [foldl_swaps places (here :: places) here ih]

theorem arrangements_cons_fst (here : Nat) (places : List Nat) (work : List α) :
    (arrangements (here :: places) work).1 =
      (here :: places).flatMap fun there => (arrangements places (swap work here there)).1 := by
  rw [arrangements, foldl_swaps places (here :: places) here (arrangements_snd places)]
  rfl

/-- The arrangement itself comes first. -/
theorem head?_arrangements (places : List Nat) (work : List α) :
    (arrangements places work).1.head? = some work := by
  induction places generalizing work with
  | nil => rfl
  | cons here places ih =>
      rw [arrangements_cons_fst, List.flatMap_cons, List.head?_append, swap_self, ih]
      rfl

/-- All orderings of a list start with the list itself. -/
theorem head?_orderings (work : List α) : (orderings work).head? = some work :=
  head?_arrangements _ work

/-! ## all places -/

/-- A swap of a place with a later one keeps what is in front, and brings the later element
there. -/
theorem take_swap (hstart : start ≤ there) (hthere : there < work.length) :
    (swap work start there).take (start + 1) = work.take start ++ work[there]?.toList := by
  have hswap := getElem?_swap (Nat.lt_of_le_of_lt hstart hthere) hthere
  have hfront : (swap work start there).take start = work.take start := by
    refine List.ext_getElem? fun k => ?_
    rw [List.getElem?_take, List.getElem?_take]
    split
    next hk => rw [hswap, if_neg (by omega), if_neg (by omega)]
    next => rfl
  have hnext : (swap work start there)[start]? = work[there]? := by
    rw [hswap]
    split
    next heq => rw [heq]
    next => exact if_pos rfl
  rw [List.take_add_one, hfront, hnext]

/-- An ordering agrees with a swap in one place more if it has the later element next. -/
theorem take_eq_take_swap_iff (hlength : order.length = work.length) (hstart : start ≤ there)
    (hthere : there < work.length) :
    order.take (start + 1) = (swap work start there).take (start + 1) ↔
      order.take start = work.take start ∧ order[start]? = work[there]? := by
  have hfront : (order.take start).length = (work.take start).length := by
    rw [List.length_take, List.length_take, hlength]
  rw [take_swap hstart hthere, List.take_add_one]
  constructor
  · intro heq
    obtain ⟨htake, hnext⟩ := List.append_inj heq hfront
    exact ⟨htake, by simpa only [Option.head?_toList] using congrArg List.head? hnext⟩
  · intro ⟨htake, hnext⟩
    rw [htake, hnext]

/-- In an ordering that agrees so far, one of the elements that come later is the next one, as it
rearranges what is left. -/
theorem exists_swap_iff (hperm : order.Perm work) (hstart : start < work.length) :
    (∃ there, (start ≤ there ∧ there < work.length) ∧
      order.take (start + 1) = (swap work start there).take (start + 1)) ↔
    order.take start = work.take start := by
  have hlength : start < order.length := by rwa [hperm.length_eq]
  constructor
  · intro ⟨there, hthere, htake⟩
    exact ((take_eq_take_swap_iff hperm.length_eq hthere.1 hthere.2).mp htake).1
  · intro htake
    have hrest : (order.drop start).Perm (work.drop start) := by
      rw [← List.perm_append_left_iff (order.take start), List.take_append_drop, htake,
        List.take_append_drop]
      exact hperm
    have hmem : order[start] ∈ work.drop start := by
      refine hrest.mem_iff.mp ?_
      rw [List.drop_eq_getElem_cons hlength]
      exact List.mem_cons_self
    obtain ⟨after, hafter⟩ := List.mem_iff_getElem?.mp hmem
    rw [List.getElem?_drop] at hafter
    obtain ⟨hlt, -⟩ := List.getElem?_eq_some_iff.mp hafter
    have hle : start ≤ start + after := Nat.le_add_right start after
    refine ⟨start + after, ⟨hle, hlt⟩, ?_⟩
    refine (take_eq_take_swap_iff hperm.length_eq hle hlt).mpr ⟨htake, ?_⟩
    rw [hafter, List.getElem?_eq_getElem hlength]

/-- **No ordering is missed**: the orderings that are had by filling the places from one on are
those that agree with the arrangement in front of it. -/
theorem mem_arrangements_iff {count : Nat} (hlength : start + count = work.length) :
    order ∈ (arrangements (List.range' start count) work).1 ↔
      order.Perm work ∧ order.take start = work.take start := by
  induction count generalizing start work with
  | zero =>
      rw [Nat.add_zero] at hlength
      refine List.mem_singleton.trans ⟨fun heq => heq ▸ ⟨.refl _, rfl⟩, fun ⟨hperm, htake⟩ => ?_⟩
      rwa [hlength, List.take_length, ← hperm.length_eq, List.take_length] at htake
  | succ count ih =>
      have hstart : start < work.length := by omega
      rw [List.range'_succ, arrangements_cons_fst, ← List.range'_succ, List.mem_flatMap]
      have hlater (there : Nat) : there ∈ List.range' start (count + 1) ↔
          start ≤ there ∧ there < work.length := by
        rw [List.mem_range'_1, hlength]
      have hinner (there : Nat) :
          order ∈ (arrangements (List.range' (start + 1) count) (swap work start there)).1 ↔
            order.Perm work ∧
              order.take (start + 1) = (swap work start there).take (start + 1) := by
        rw [ih (by rw [length_swap]; omega)]
        refine and_congr_left fun _ => ⟨fun h => h.trans (perm_swap ..), fun h => ?_⟩
        exact h.trans (perm_swap ..).symm
      simp only [hlater, hinner]
      constructor
      · intro ⟨there, hthere, hperm, htake⟩
        exact ⟨hperm, (exists_swap_iff hperm hstart).mp ⟨there, hthere, htake⟩⟩
      · intro ⟨hperm, htake⟩
        obtain ⟨there, hthere, htake⟩ := (exists_swap_iff hperm hstart).mpr htake
        exact ⟨there, hthere, hperm, htake⟩

theorem mem_orderings_iff : order ∈ orderings work ↔ order.Perm work := by
  have hmem : order ∈ (arrangements (List.range' 0 work.length) work).1 ↔
      order.Perm work ∧ order.take 0 = work.take 0 :=
    mem_arrangements_iff (Nat.zero_add work.length)
  rw [List.take_zero, List.take_zero] at hmem
  unfold orderings
  rw [List.range_eq_range', hmem]
  exact and_iff_left rfl

end SharedLink
