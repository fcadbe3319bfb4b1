import Mathlib.Data.List.Perm.Basic
import SharedLink.Proofs.Times

/-!
# SharedLink.Proofs.Stability

What a stable sort gives.

A list is stably sorted if nothing later comes strictly before anything earlier and if
elements of which neither comes before the other stand in the order in which they were.
Sorting gives such a list, and so does taking out the first of the least elements again
and again.

* `StablySorted` — a rearrangement that is sorted and keeps the order of what is tied;
* `stablySorted_sortBy` — sorting gives one;
* `StablySorted.cons` — it starts with the first element that nothing comes strictly before;
* `StablySorted.unique` — there is no other.
-/

namespace SharedLink

variable {α β : Type} {before : α → α → Bool} {p : α → Prop} {x : α} {xs ys zs : List α}

/-- Neither of two elements comes strictly before the other. -/
def tied (before : α → α → Bool) (x y : α) : Bool := !before x y && !before y x

theorem tied_iff {y : α} : tied before x y = true ↔ before x y = false ∧ before y x = false := by
  simp [tied]

/-- `ys` is `xs` in the order of `before`, with the elements that are tied with one another in
the order in which they stand in `xs`. -/
structure StablySorted (before : α → α → Bool) (xs ys : List α) : Prop where
  perm : ys.Perm xs
  sorted : Sorted before ys
  stable : ∀ x ∈ xs, ys.filter (tied before x) = xs.filter (tied before x)

/-! ## sorting -/

/-- A strict weak order can be read backwards. -/
theorem StrictWeakOn.swap (order : StrictWeakOn before p) :
    StrictWeakOn (fun x y => before y x) p where
  asymm hx hy h := order.asymm hy hx h
  trans hx hy hz hxy hyz := order.trans hz hy hx hyz hxy

/-- Inserting an element puts it in front of all that it is tied with, and leaves the others in
their order: it is moved behind such only that it is not tied with. -/
theorem filter_insertBy (order : StrictWeakOn before p) {y : α} (hx : p x) (hy : p y)
    (hys : ∀ z ∈ ys, p z) :
    (insertBy before y ys).filter (tied before x) = (y :: ys).filter (tied before x) := by
  induction ys with
  | nil => rfl
  | cons z ys ih =>
      obtain ⟨hz, hys⟩ := List.forall_mem_cons.mp hys
      unfold insertBy
      split
      case isFalse => rfl
      case isTrue hzy =>
        have hapart : ¬(tied before x y = true ∧ tied before x z = true) := by
          rintro ⟨hxy, hxz⟩
          have hzy' := order.trans hy hx hz (tied_iff.mp hxy).1 (tied_iff.mp hxz).2
          rw [hzy] at hzy'
          cases hzy'
        rw [List.filter_cons, ih hys, List.filter_cons, List.filter_cons, List.filter_cons]
        by_cases hxy : tied before x y = true
        · have hxz : ¬tied before x z = true := fun hxz => hapart ⟨hxy, hxz⟩
          rw [if_neg hxz, if_neg hxz]
        · rw [if_neg hxy, if_neg hxy]

/-- Sorting keeps the order of what is tied. -/
theorem filter_sortBy (order : StrictWeakOn before p) (hx : p x) (hxs : ∀ y ∈ xs, p y) :
    (sortBy before xs).filter (tied before x) = xs.filter (tied before x) := by
  induction xs with
  | nil => rfl
  | cons y xs ih =>
      obtain ⟨hy, hrest⟩ := List.forall_mem_cons.mp hxs
      have hsorted (z : α) (hz : z ∈ sortBy before xs) : p z :=
        hrest z ((perm_sortBy before xs).mem_iff.mp hz)
      have hstep : sortBy before (y :: xs) = insertBy before y (sortBy before xs) := rfl
      rw [hstep, filter_insertBy order hx hy hsorted, List.filter_cons, List.filter_cons, ih hrest]

/-- **Sorting is stable.** -/
theorem stablySorted_sortBy (order : StrictWeakOn before p) (hxs : ∀ x ∈ xs, p x) :
    StablySorted before xs (sortBy before xs) where
  perm := perm_sortBy before xs
  sorted := sorted_sortBy order hxs
  stable _ hx := filter_sortBy order (hxs _ hx) hxs

/-- What is sorted by a key of its elements is what the keyed elements are sorted to. -/
theorem sortBy_map (before : β → β → Bool) (f : α → β) (xs : List α) :
    sortBy before (xs.map f) = (sortBy (fun x y => before (f x) (f y)) xs).map f := by
  have hinsert (x : α) (ys : List α) : insertBy before (f x) (ys.map f) =
      (insertBy (fun x y => before (f x) (f y)) x ys).map f := by
    induction ys with
    | nil => rfl
    | cons y ys ih =>
        simp only [List.map_cons, insertBy]
        split
        · rw [ih, List.map_cons]
        · rfl
  induction xs with
  | nil => rfl
  | cons x xs ih =>
      unfold sortBy at ih ⊢
      rw [List.map_cons, List.foldr_cons, ih, hinsert, List.foldr_cons]

/-! ## one element at a time -/

/-- What is tied with one of two tied elements is tied with the other. -/
theorem tied_congr (order : StrictWeakOn before p) {y z : α} (hx : p x) (hy : p y) (hz : p z)
    (hxy : tied before x y = true) : tied before x z = tied before y z := by
  obtain ⟨hxy, hyx⟩ := tied_iff.mp hxy
  rw [Bool.eq_iff_iff, tied_iff, tied_iff]
  constructor
  · intro ⟨hxz, hzx⟩
    exact ⟨order.trans hz hx hy hxz hyx, order.trans hy hx hz hxy hzx⟩
  · intro ⟨hyz, hzy⟩
    exact ⟨order.trans hz hy hx hyz hxy, order.trans hx hy hz hyx hzy⟩

/-- The order of what is tied is kept, with whatever element it is tied. -/
theorem StablySorted.filter_eq (order : StrictWeakOn before p) (h : StablySorted before xs ys)
    (hxs : ∀ y ∈ xs, p y) (hx : p x) :
    ys.filter (tied before x) = xs.filter (tied before x) := by
  by_cases htied : ∃ y ∈ xs, tied before x y = true
  · obtain ⟨y, hy, hxy⟩ := htied
    have hcongr (z : α) (hz : z ∈ xs) : tied before x z = tied before y z :=
      tied_congr order hx (hxs y hy) (hxs z hz) hxy
    rw [List.filter_congr hcongr, ← h.stable y hy]
    exact List.filter_congr fun z hz => hcongr z (h.perm.mem_iff.mp hz)
  · have hnone (y : α) (hy : y ∈ xs) : ¬tied before x y = true := fun hxy => htied ⟨y, hy, hxy⟩
    rw [List.filter_eq_nil_iff.mpr hnone, List.filter_eq_nil_iff]
    exact fun y hy => hnone y (h.perm.mem_iff.mp hy)

/-- **The head of a stable sort** is the first element of all that nothing comes strictly before,
and the rest is the stable sort of the others. -/
theorem StablySorted.cons (order : StrictWeakOn before p) {front back : List α}
    (hxs : ∀ y ∈ front ++ x :: back, p y) (hfront : ∀ y ∈ front, before x y = true)
    (hback : ∀ y ∈ back, before y x = false) (h : StablySorted before (front ++ back) ys) :
    StablySorted before (front ++ x :: back) (x :: ys) := by
  have hx : p x := hxs x (List.mem_append_right _ List.mem_cons_self)
  have hfront' (y : α) (hy : y ∈ front) : p y := hxs y (List.mem_append_left _ hy)
  have hrest (y : α) (hy : y ∈ front ++ back) : p y :=
    hxs y (List.perm_middle.mem_iff.mpr (List.mem_cons_of_mem x hy))
  refine ⟨(h.perm.cons x).trans List.perm_middle.symm, ?_, fun y hy => ?_⟩
  · refine List.pairwise_cons.mpr ⟨fun y hy => ?_, h.sorted⟩
    cases List.mem_append.mp (h.perm.mem_iff.mp hy) with
    | inl hy => exact order.asymm hx (hfront' y hy) (hfront y hy)
    | inr hy => exact hback y hy
  · have hy : p y := hxs y hy
    rw [List.filter_cons, h.filter_eq order hrest hy, List.filter_append, List.filter_append,
      List.filter_cons]
    by_cases hyx : tied before y x = true
    · have hnone : front.filter (tied before y) = [] := by
        refine List.filter_eq_nil_iff.mpr fun z hz hyz => ?_
        rw [tied_congr order hy hx (hfront' z hz) hyx, tied_iff, hfront z hz] at hyz
        cases hyz.1
      rw [if_pos hyx, if_pos hyx, hnone]
      rfl
    · rw [if_neg hyx, if_neg hyx]

/-! ## no other way -/

/-- Lists that are sorted and that show the same order of what is tied are the same: neither of
their heads comes before the other, as both stand in both lists. -/
theorem eq_of_sorted_of_tied (order : StrictWeakOn before p) (hys : ∀ y ∈ ys, p y)
    (hperm : ys.Perm zs) (hsorted : Sorted before ys) (hsorted' : Sorted before zs)
    (htied : ∀ x ∈ ys, ys.filter (tied before x) = zs.filter (tied before x)) : ys = zs := by
  induction ys generalizing zs with
  | nil => exact (List.nil_perm.mp hperm).symm
  | cons y ys ih =>
      obtain ⟨hy, hrest⟩ := List.forall_mem_cons.mp hys
      cases zs with
      | nil => cases List.perm_nil.mp hperm
      | cons z zs =>
          have hz : p z := hys z (hperm.mem_iff.mpr List.mem_cons_self)
          have hleast {u v : α} {us : List α} (hu : p u) (hfirst : ∀ w ∈ us, before w u = false)
              (hv : v ∈ u :: us) : before v u = false := by
            obtain rfl | hmem := List.mem_cons.mp hv
            · exact order.irrefl hu
            · exact hfirst v hmem
          have hzy : before z y = false :=
            hleast hy (List.pairwise_cons.mp hsorted).1 (hperm.mem_iff.mpr List.mem_cons_self)
          have hyz : before y z = false :=
            hleast hz (List.pairwise_cons.mp hsorted').1 (hperm.mem_iff.mp List.mem_cons_self)
          have hheads := htied y List.mem_cons_self
          rw [List.filter_cons, if_pos (tied_iff.mpr ⟨order.irrefl hy, order.irrefl hy⟩),
            List.filter_cons, if_pos (tied_iff.mpr ⟨hyz, hzy⟩)] at hheads
          obtain rfl := (List.cons.inj hheads).1
          rw [ih hrest hperm.cons_inv hsorted.of_cons hsorted'.of_cons fun x hx => ?_]
          have hsame := htied x (List.mem_cons_of_mem y hx)
          rw [List.filter_cons, List.filter_cons] at hsame
          split at hsame
          · exact (List.cons.inj hsame).2
          · exact hsame

/-- **A list is stably sorted in one way only.** -/
theorem StablySorted.unique (order : StrictWeakOn before p) (hxs : ∀ y ∈ xs, p y)
    (h : StablySorted before xs ys) (h' : StablySorted before xs zs) : ys = zs := by
  refine eq_of_sorted_of_tied order (fun y hy => hxs y (h.perm.mem_iff.mp hy))
    (h.perm.trans h'.perm.symm) h.sorted h'.sorted fun x hx => ?_
  have hx : x ∈ xs := h.perm.mem_iff.mp hx
  rw [h.stable x hx, h'.stable x hx]

/-- So it is sorted to its first element that nothing comes strictly before, and what the others
are sorted to. -/
theorem sortBy_middle (order : StrictWeakOn before p) {front back : List α}
    (hxs : ∀ y ∈ front ++ x :: back, p y) (hfront : ∀ y ∈ front, before x y = true)
    (hback : ∀ y ∈ back, before y x = false) :
    sortBy before (front ++ x :: back) = x :: sortBy before (front ++ back) := by
  have hrest (y : α) (hy : y ∈ front ++ back) : p y :=
    hxs y (List.perm_middle.mem_iff.mpr (List.mem_cons_of_mem x hy))
  exact (stablySorted_sortBy order hxs).unique order hxs
    ((stablySorted_sortBy order hrest).cons order hxs hfront hback)

end SharedLink
