import SharedLink.Proofs.Selections
import SharedLink.Proofs.Signs
import SharedLink.Proofs.Stability

/-!
# SharedLink.Proofs.Histories

Which offer of a history is held, and selecting from it in parts.

Keys of several numbers are in a strict weak order, whatever their lengths: they are
compared at the first place where they differ, and a proper beginning comes before what it
is the beginning of.  Keys of which neither comes before the other agree in all places.
So what is held is the first offer whose key is the least of all.  As it is ahead of all
that was offered earlier, it does not matter whether later offers meet it one by one or
have been selected from among themselves before.

* `strictWeakOn_lexBefore`, `sameKey_iff` — the order of keys;
* `firstLeast_parts` — a history can be cut, and the parts selected from separately;
* `holdsEarliest_of_firstLeast` — what is held, for keys of any lengths.
-/

namespace SharedLink

namespace Selection

open Timescale

/-! ## the order of keys -/

section

variable {τ : Type} [Timescale τ] {a b : τ} {as bs key other : List τ}

/-- A key of numbers. -/
def IsNumericKey (key : List τ) : Prop := ∀ t ∈ key, IsNumber t

instance decidableIsNumericKey (key : List τ) : Decidable (IsNumericKey key) :=
  inferInstanceAs (Decidable (∀ t ∈ key, IsNumber t))

/-- Keys of the same length with the same times, place by place. -/
def SameKey (key other : List τ) : Prop := List.Forall₂ (fun a b => a ≤ b ∧ b ≤ a) key other

/-- Nothing comes before the key without times. -/
theorem lexBefore_nil (key : List τ) : lexBefore key [] = false := by
  cases key <;> rfl

/-- Keys with a time in front are compared by that time, and then by the others. -/
theorem lexBefore_cons_eq_lex : lexBefore (a :: as) (b :: bs) =
    lex Prod.fst (fun x y => lexBefore x.2 y.2) (a, as) (b, bs) := rfl

variable [Ordered τ]

/-- Keys up to a length are in a strict weak order; the induction is on the length, as the rest
of a key is compared like a key. -/
theorem strictWeakOn_lexBefore_of_length (length : Nat) :
    StrictWeakOn lexBefore fun key : List τ => IsNumericKey key ∧ key.length ≤ length := by
  induction length with
  | zero =>
      have hnil {key : List τ} (h : key.length ≤ 0) : key = [] :=
        List.length_eq_zero_iff.mp (Nat.le_zero.mp h)
      refine ⟨fun hx _ _ => ?_, fun hx _ _ _ _ => ?_⟩
      · rw [hnil hx.2]
        exact lexBefore_nil _
      · rw [hnil hx.2]
        exact lexBefore_nil _
  | succ length ih =>
      have order := strictWeakOn_lex (f := (Prod.fst : τ × List τ → τ))
        (r := fun x y => lexBefore x.2 y.2) (p := fun x => IsNumericKey x.2 ∧ x.2.length ≤ length)
        ⟨ih.asymm, ih.trans⟩
      have hparts {a : τ} {as : List τ}
          (h : IsNumericKey (a :: as) ∧ (a :: as).length ≤ length + 1) :
          IsNumber a ∧ IsNumericKey as ∧ as.length ≤ length :=
        ⟨(List.forall_mem_cons.mp h.1).1, (List.forall_mem_cons.mp h.1).2,
          Nat.le_of_succ_le_succ h.2⟩
      constructor
      case asymm =>
        intro x y hx hy h
        cases x with
        | nil => exact lexBefore_nil y
        | cons a as =>
            cases y with
            | nil => cases h
            | cons b bs =>
                exact order.asymm (a := (a, as)) (b := (b, bs)) (hparts hx) (hparts hy) h
      case trans =>
        intro x y z hx hy hz hxy hyz
        cases x with
        | nil => exact lexBefore_nil z
        | cons a as =>
            cases y with
            | nil => cases hxy
            | cons b bs =>
                cases z with
                | nil => cases hyz
                | cons c cs =>
                    exact order.trans (a := (a, as)) (b := (b, bs)) (c := (c, cs))
                      (hparts hx) (hparts hy) (hparts hz) hxy hyz

/-- **The order of keys**: keys of numbers are in a strict weak order, whatever their lengths. -/
theorem strictWeakOn_lexBefore : StrictWeakOn lexBefore (IsNumericKey : List τ → Prop) where
  asymm {x y} hx hy :=
    (strictWeakOn_lexBefore_of_length (max x.length y.length)).asymm
      ⟨hx, Nat.le_max_left ..⟩ ⟨hy, Nat.le_max_right ..⟩
  trans {x y z} hx hy hz :=
    (strictWeakOn_lexBefore_of_length (max x.length (max y.length z.length))).trans
      ⟨hx, Nat.le_max_left ..⟩ ⟨hy, by omega⟩ ⟨hz, by omega⟩

/-- Keys of numbers are the same just if neither comes before the other. -/
theorem sameKey_iff (hkey : IsNumericKey key) (hother : IsNumericKey other) :
    SameKey key other ↔ lexBefore key other = false ∧ lexBefore other key = false := by
  induction key generalizing other with
  | nil =>
      cases other with
      | nil => exact iff_of_true .nil ⟨rfl, rfl⟩
      | cons b bs => exact iff_of_false (fun h => by cases h) fun h => by cases h.1
  | cons a as ih =>
      cases other with
      | nil => exact iff_of_false (fun h => by cases h) fun h => by cases h.2
      | cons b bs =>
          obtain ⟨ha, has⟩ := List.forall_mem_cons.mp hkey
          obtain ⟨hb, hbs⟩ := List.forall_mem_cons.mp hother
          rw [lexBefore_cons_eq_lex, lexBefore_cons_eq_lex,
            lex_eq_false_iff (by exact hb) (by exact ha),
            lex_eq_false_iff (by exact ha) (by exact hb)]
          unfold SameKey at ih ⊢
          rw [List.forall₂_cons, ih has hbs]
          constructor
          · intro ⟨⟨hab, hba⟩, hsame, hsame'⟩
            exact ⟨⟨hba, fun _ => hsame⟩, hab, fun _ => hsame'⟩
          · intro ⟨⟨hba, hsame⟩, hab, hsame'⟩
            exact ⟨⟨hab, hba⟩, hsame hab, hsame' hba⟩

/-- A key comes before another one or is the same, unless the other one comes before it. -/
theorem lexBefore_or_sameKey (hkey : IsNumericKey key) (hother : IsNumericKey other)
    (h : lexBefore other key = false) : lexBefore key other = true ∨ SameKey key other := by
  cases hbefore : lexBefore key other with
  | true => exact .inl rfl
  | false => exact .inr ((sameKey_iff hkey hother).mpr ⟨hbefore, h⟩)

end

/-! ## selecting in parts -/

section

variable {κ α : Type} {before : κ → κ → Bool} {p : κ → Prop} {kept least last : κ × α}
  {front back : List (κ × α)}

/-- Of three offers the one that is held does not depend on whether the last two are compared
with each other first. -/
theorem offer_offer (order : StrictWeakOn before p) (hkept : p kept.1) (hleast : p least.1)
    (hlast : p last.1) :
    offer before (offer before (some kept) least) last =
      (offer before (some least) last).toList.foldl (offer before) (some kept) := by
  simp only [offer]
  by_cases hlk : before least.1 kept.1 = true
  · rw [if_pos hlk]
    by_cases hll : before last.1 least.1 = true
    · have hbefore := (ahead_of_strictWeakOn order).passed hlast hleast hkept hll hlk
      simp only [if_pos hll, Option.toList_some, List.foldl_cons, List.foldl_nil, offer,
        if_pos hbefore]
    · simp only [if_neg hll, Option.toList_some, List.foldl_cons, List.foldl_nil, offer,
        if_pos hlk]
  · rw [if_neg hlk]
    by_cases hll : before last.1 least.1 = true
    · simp only [if_pos hll, Option.toList_some, List.foldl_cons, List.foldl_nil, offer]
    · have hbehind := order.trans hkept hleast hlast (Bool.eq_false_iff.mpr hlk)
        (Bool.eq_false_iff.mpr hll)
      simp only [if_neg hll, Option.toList_some, List.foldl_cons, List.foldl_nil, offer,
        if_neg hlk, hbehind, if_neg Bool.false_ne_true]

/-- Later offers are met as if they were the one that is held of them. -/
theorem foldl_offer_some (order : StrictWeakOn before p) (hkept : p kept.1)
    (hback : ∀ y ∈ back, p y.1) :
    back.foldl (offer before) (some kept) =
      (firstLeast before back).toList.foldl (offer before) (some kept) := by
  induction back using List.reverseRecOn with
  | nil => rfl
  | append_singleton back last ih =>
      have hlast : p last.1 := hback last (List.mem_append_right _ List.mem_cons_self)
      have hrest (y : κ × α) (hy : y ∈ back) : p y.1 := hback y (List.mem_append_left _ hy)
      rw [List.foldl_concat, ih hrest, firstLeast_append, List.foldl_cons, List.foldl_nil]
      cases hheld : firstLeast before back with
      | none => rfl
      | some least => exact offer_offer order hkept (hrest least (mem_of_firstLeast hheld)) hlast

/-- **Selecting in parts**: a history can be cut anywhere, even in front of it or behind it, and
what is held of it is what is held of what is held of the parts. -/
theorem firstLeast_parts (order : StrictWeakOn before p) (hxs : ∀ y ∈ front ++ back, p y.1) :
    firstLeast before ((firstLeast before front).toList ++ (firstLeast before back).toList) =
      firstLeast before (front ++ back) := by
  obtain ⟨hfront, hback⟩ := List.forall_mem_append.mp hxs
  rw [firstLeast_append, firstLeast_append]
  cases hheld : firstLeast before front with
  | none =>
      cases hlater : firstLeast before back with
      | none =>
          rw [firstLeast_eq_none_iff.mp hlater]
          rfl
      | some least => exact hlater.symm
  | some kept =>
      exact (foldl_offer_some order (hfront kept (mem_of_firstLeast hheld)) hback).symm

end

/-! ## keys of any lengths -/

section

variable {τ α : Type} [Timescale τ] [Ordered τ]

/-- What is held of some offers: the first one of those with the least key, which comes before
all other keys. -/
structure HoldsEarliest (xs : List (List τ × α)) (x : List τ × α) : Prop where
  least : ∀ y ∈ xs, lexBefore x.1 y.1 = true ∨ SameKey x.1 y.1
  earliest : ∃ front back, xs = front ++ x :: back ∧ ∀ y ∈ front, ¬SameKey x.1 y.1

/-- **What is held in the end** of a history that is not empty, with keys of any lengths but
without NaN, is the first offer of all with the least key, and the same is held if the history is
cut anywhere and the parts are selected from separately. -/
theorem holdsEarliest_of_firstLeast {xs : List (List τ × α)} (hne : xs ≠ [])
    (hnum : ∀ y ∈ xs, IsNumericKey y.1) :
    ∃ x, firstLeast lexBefore xs = some x ∧ HoldsEarliest xs x ∧
      ∀ front back, xs = front ++ back →
        firstLeast lexBefore
          ((firstLeast lexBefore front).toList ++ (firstLeast lexBefore back).toList) = some x := by
  obtain ⟨x, hx⟩ := Option.ne_none_iff_exists'.mp (mt firstLeast_eq_none_iff.mp hne)
  obtain ⟨front, back, hsplit, hfront, hback⟩ :=
    splits_of_firstLeast (ahead_of_strictWeakOn strictWeakOn_lexBefore) hnum hx
  have hkey : IsNumericKey x.1 := hnum x (mem_of_firstLeast hx)
  refine ⟨x, hx, ⟨fun y hy => ?_, front, back, hsplit, fun y hy hsame => ?_⟩, ?_⟩
  · have hother : IsNumericKey y.1 := hnum y hy
    refine lexBefore_or_sameKey hkey hother ?_
    rw [hsplit] at hy
    obtain hy | rfl | hy := (List.mem_append.mp hy).imp_right List.mem_cons.mp
    · exact strictWeakOn_lexBefore.asymm hkey hother (hfront y hy)
    · exact strictWeakOn_lexBefore.irrefl hkey
    · exact hback y hy
  · have hother : IsNumericKey y.1 := hnum y (hsplit ▸ List.mem_append_left _ hy)
    have hbefore : lexBefore x.1 y.1 = true := hfront y hy
    rw [((sameKey_iff hkey hother).mp hsame).1] at hbefore
    cases hbefore
  · rintro front back rfl
    rw [firstLeast_parts strictWeakOn_lexBefore hnum, hx]

/-- The key that is held is the beginning of others, and the two zeros are the same time. -/
theorem holdsEarliest_zeros :
    ([([0, 5], 'a'), ([0], 'b'), ([-0], 'c'), ([0, 1], 'd')] : List (List Float × Char)) ≠ [] ∧
      (∀ y ∈ ([([0, 5], 'a'), ([0], 'b'), ([-0], 'c'), ([0, 1], 'd')] :
        List (List Float × Char)), IsNumericKey y.1) ∧
      HoldsEarliest [([0, 5], 'a'), ([0], 'b'), ([-0], 'c'), ([0, 1], 'd')]
        (([0], 'b') : List Float × Char) := by
  have hnum : ∀ y ∈ ([([0, 5], 'a'), ([0], 'b'), ([-0], 'c'), ([0, 1], 'd')] :
      List (List Float × Char)), IsNumericKey y.1 := by decide +kernel
  have hheld : firstLeast lexBefore [([0, 5], 'a'), ([0], 'b'), ([-0], 'c'), ([0, 1], 'd')] =
      some (([0], 'b') : List Float × Char) := by decide +kernel
  have hne := List.cons_ne_nil (([0, 5], 'a') : List Float × Char)
    [([0], 'b'), ([-0], 'c'), ([0, 1], 'd')]
  obtain ⟨x, hx, hholds, -⟩ := holdsEarliest_of_firstLeast hne hnum
  obtain rfl := Option.some.inj (hheld.symm.trans hx)
  exact ⟨hne, hnum, hholds⟩

end

end Selection

end SharedLink
