/-!
# SharedLink.Sorting

A stable sort by a test of what comes strictly before what.

Each element is inserted behind everything that comes strictly before it and in
front of the rest, from the last one to the first, so that elements of which
neither comes before the other keep their order.

`insertRight` puts one element into a list that is sorted already, behind
everything that it does not come strictly before; the place is found by halving.

* `perm_sortBy` — sorting rearranges;
* `sorted_sortBy`, `sorted_insertRight` — nothing later comes strictly before
  anything earlier, for a test that is a strict weak order on the elements.
-/

namespace SharedLink

variable {α : Type}

/-- `x` behind the elements at the front of a list that come strictly before it. -/
def insertBy (before : α → α → Bool) (x : α) : List α → List α
  | [] => [x]
  | y :: ys => if before y x then y :: insertBy before x ys else x :: y :: ys

/-- A list in the order of `before`; what neither precedes keeps its order.  Where
`before` is no strict weak order, as with keys that are NaN, the result is a
rearrangement and nothing more: another stable sort may come to another one. -/
def sortBy (before : α → α → Bool) (xs : List α) : List α := xs.foldr (insertBy before) []

/-- Integers in increasing order. -/
def sortInts (ns : List Int) : List Int := sortBy (fun m n => decide (m < n)) ns

/-- The first place between `low` and `high` whose element `x` comes strictly
before, found by halving; `high` if there is none. -/
def upperBound (before : α → α → Bool) (x : α) (xs : List α) (low high : Nat) : Nat :=
  if low < high then
    let middle := (low + high) / 2
    match xs[middle]? with
    | none => low
    | some y =>
      if before x y then upperBound before x xs low middle
      else upperBound before x xs (middle + 1) high
  else low
termination_by high - low
decreasing_by all_goals omega

/-- `x` in a sorted list, behind everything that it does not come strictly before. -/
def insertRight (before : α → α → Bool) (x : α) (xs : List α) : List α :=
  let place := upperBound before x xs 0 xs.length
  xs.take place ++ x :: xs.drop place

/-! ## what sorting keeps and gives -/

/-- Inserting by halving adds the element and nothing else. -/
theorem perm_insertRight (before : α → α → Bool) (x : α) (xs : List α) :
    (insertRight before x xs).Perm (x :: xs) := by
  simp only [insertRight]
  refine List.perm_middle.trans ?_
  rw [List.take_append_drop]

/-- Inserting adds the element and nothing else. -/
theorem perm_insertBy (before : α → α → Bool) (x : α) (ys : List α) :
    (insertBy before x ys).Perm (x :: ys) := by
  induction ys with
  | nil => exact .refl _
  | cons y ys ih =>
    simp only [insertBy]
    split
    · exact (ih.cons y).trans (.swap x y ys)
    · exact .refl _

/-- **Rearrangement**: sorting loses nothing and adds nothing. -/
theorem perm_sortBy (before : α → α → Bool) (xs : List α) : (sortBy before xs).Perm xs := by
  induction xs with
  | nil => exact .refl _
  | cons x xs ih => exact (perm_insertBy before x _).trans (ih.cons x)

/-! ## order -/

/-- Among the elements of `p` a test is a strict weak order: it never holds both
ways, and where it fails in a row it fails across. -/
structure StrictWeakOn (before : α → α → Bool) (p : α → Prop) : Prop where
  asymm {a b : α} : p a → p b → before a b = true → before b a = false
  trans {a b c : α} : p a → p b → p c →
    before b a = false → before c b = false → before c a = false

/-- Nothing comes strictly before itself. -/
theorem StrictWeakOn.irrefl {before : α → α → Bool} {p : α → Prop} (order : StrictWeakOn before p)
    {a : α} (ha : p a) : before a a = false := by
  cases h : before a a with
  | false => rfl
  | true => rw [← h, order.asymm ha ha h]

/-- Nothing later comes strictly before anything earlier. -/
def Sorted (before : α → α → Bool) (xs : List α) : Prop :=
  xs.Pairwise fun a b => before b a = false

instance {before : α → α → Bool} {xs : List α} : Decidable (Sorted before xs) :=
  inferInstanceAs (Decidable (xs.Pairwise fun a b => before b a = false))

/-- Inserting into a sorted list leaves it sorted. -/
theorem sorted_insertBy {before : α → α → Bool} {p : α → Prop} (order : StrictWeakOn before p)
    {x : α} {ys : List α} (hx : p x) (hys : ∀ y ∈ ys, p y) (h : Sorted before ys) :
    Sorted before (insertBy before x ys) := by
  induction ys with
  | nil => exact List.pairwise_singleton _ x
  | cons y ys ih =>
      obtain ⟨hy, hrest⟩ := List.forall_mem_cons.mp hys
      obtain ⟨hfirst, hsorted⟩ := List.pairwise_cons.mp h
      unfold insertBy
      split
      case isTrue hyx =>
          refine List.pairwise_cons.mpr ⟨fun z hz => ?_, ih hrest hsorted⟩
          obtain rfl | hz := List.mem_cons.mp ((perm_insertBy before x ys).mem_iff.mp hz)
          · exact order.asymm hy hx hyx
          · exact hfirst z hz
      case isFalse hyx =>
          have hyx : before y x = false := Bool.eq_false_iff.mpr hyx
          refine List.pairwise_cons.mpr ⟨fun z hz => ?_, h⟩
          obtain rfl | hz := List.mem_cons.mp hz
          · exact hyx
          · exact order.trans hx hy (hrest z hz) hyx (hfirst z hz)

/-- **Order**: in a sorted list nothing comes strictly before an earlier element. -/
theorem sorted_sortBy {before : α → α → Bool} {p : α → Prop} (order : StrictWeakOn before p)
    {xs : List α} (hxs : ∀ x ∈ xs, p x) : Sorted before (sortBy before xs) := by
  induction xs with
  | nil => exact .nil
  | cons x xs ih =>
      obtain ⟨hx, hrest⟩ := List.forall_mem_cons.mp hxs
      refine sorted_insertBy order hx (fun y hy => ?_) (ih hrest)
      exact hrest y ((perm_sortBy before xs).mem_iff.mp hy)

/-- In a sorted list a later element does not come strictly before an earlier one. -/
theorem Sorted.before_getElem {before : α → α → Bool} {xs : List α} (h : Sorted before xs)
    {i j : Nat} (hij : i < j) (hi : i < xs.length) (hj : j < xs.length) :
    before xs[j] xs[i] = false :=
  List.pairwise_iff_getElem.mp h i j hi hj hij

/-- Halving ends at the place in a sorted list from which on `x` comes strictly
before the elements, if this holds of the places outside of `low` and `high`: what
`x` comes before it comes before with all behind, and otherwise with none in front. -/
theorem before_getElem_iff_upperBound {before : α → α → Bool} {p : α → Prop}
    (order : StrictWeakOn before p) {x : α} {xs : List α} (hx : p x) (hxs : ∀ y ∈ xs, p y)
    (h : Sorted before xs) {low high : Nat} (hle : low ≤ high) (hlen : high ≤ xs.length)
    (hlow : ∀ (i : Nat) (hi : i < xs.length), i < low → before x xs[i] = false)
    (hhigh : ∀ (i : Nat) (hi : i < xs.length), high ≤ i → before x xs[i] = true)
    {i : Nat} (hi : i < xs.length) :
    before x xs[i] = true ↔ upperBound before x xs low high ≤ i := by
  fun_induction upperBound before x xs low high with
  | case1 low high hlt middle hm =>
      rw [List.getElem?_eq_none_iff] at hm
      omega
  | case2 low high hlt middle y hm hxy ih =>
      obtain ⟨hmlt, rfl⟩ := List.getElem?_eq_some_iff.mp hm
      refine ih (by omega) (by omega) hlow fun j hj hmj => ?_
      obtain hlt | rfl := Nat.lt_or_eq_of_le hmj
      · cases hxj : before x xs[j] with
        | true => rfl
        | false =>
            have := order.trans (hxs _ (List.getElem_mem hmlt)) (hxs _ (List.getElem_mem hj)) hx
              (h.before_getElem hlt hmlt hj) hxj
            rw [hxy] at this
            cases this
      · exact hxy
  | case3 low high hlt middle y hm hxy ih =>
      obtain ⟨hmlt, rfl⟩ := List.getElem?_eq_some_iff.mp hm
      have hxy : before x xs[middle] = false := Bool.eq_false_iff.mpr hxy
      refine ih (by omega) (by omega) (fun j hj hjm => ?_) hhigh
      obtain hlt | rfl := Nat.lt_or_eq_of_le (Nat.le_of_lt_succ hjm)
      · exact order.trans (hxs _ (List.getElem_mem hj)) (hxs _ (List.getElem_mem hmlt)) hx
          (h.before_getElem hlt hj hmlt) hxy
      · exact hxy
  | case4 low high hnlt =>
      have heq : low = high := by omega
      subst heq
      constructor
      · intro hxi
        cases Nat.lt_or_ge i low with
        | inl hlt => rw [hlow i hi hlt] at hxi; cases hxi
        | inr hge => exact hge
      · exact hhigh i hi

/-- Inserting by halving leaves a sorted list sorted. -/
theorem sorted_insertRight {before : α → α → Bool} {p : α → Prop} (order : StrictWeakOn before p)
    {x : α} {xs : List α} (hx : p x) (hxs : ∀ y ∈ xs, p y) (h : Sorted before xs) :
    Sorted before (insertRight before x xs) := by
  have place {i : Nat} (hi : i < xs.length) :
      before x xs[i] = true ↔ upperBound before x xs 0 xs.length ≤ i :=
    before_getElem_iff_upperBound order hx hxs h (Nat.zero_le _) (Nat.le_refl _)
      (fun i _ hi => absurd hi (Nat.not_lt_zero i))
      (fun i hi hlen => absurd hi (Nat.not_lt.mpr hlen)) hi
  unfold insertRight
  have behind {y : α} (hy : y ∈ xs.drop (upperBound before x xs 0 xs.length)) :
      before y x = false := by
    obtain ⟨i, hi, rfl⟩ := List.mem_drop_iff_getElem.mp hy
    exact order.asymm hx (hxs _ (List.getElem_mem _)) ((place _).mpr (Nat.le_add_right _ i))
  have front {y : α} (hy : y ∈ xs.take (upperBound before x xs 0 xs.length)) :
      before x y = false := by
    obtain ⟨i, hi, rfl⟩ := List.mem_take_iff_getElem.mp hy
    rw [Nat.lt_min] at hi
    exact Bool.eq_false_iff.mpr fun hxi => Nat.not_le.mpr hi.1 ((place hi.2).mp hxi)
  unfold Sorted at h ⊢
  rw [← List.take_append_drop (upperBound before x xs 0 xs.length) xs,
    List.pairwise_append] at h
  obtain ⟨hfront, hbehind, hacross⟩ := h
  rw [List.pairwise_append, List.pairwise_cons]
  refine ⟨hfront, ⟨fun y hy => behind hy, hbehind⟩, fun y hy z hz => ?_⟩
  obtain rfl | hz := List.mem_cons.mp hz
  · exact front hy
  · exact hacross y hy z hz

end SharedLink
