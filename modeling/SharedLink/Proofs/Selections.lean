import Mathlib.Data.List.Induction
import SharedLink.Proofs.Times
import SharedLink.Selection

/-!
# SharedLink.Proofs.Selections

Which of several offers is held in the end.

What is held comes strictly before all that was offered earlier, and nothing that is offered
later comes strictly before it.  The first half needs a test that can be relied on:
`Ahead` lists what is asked of it, so that times can be selected from whether NaN is among
them or not.

* `Ahead` — what is gained on the offers before by coming strictly before the last of them;
* `ahead_of_strictWeakOn`, `ahead_lt` — for keys in a strict weak order, and for all times;
* `Selection.splits_of_firstLeast`, `Selection.exists_split_of_firstLeastOn` — what is held, between
  what was offered before it and what was offered behind it;
* `Selection.firstLeastOn_map` — only the keys count.
-/

namespace SharedLink

variable {κ : Type}

/-- A key that comes strictly before the one that is held is ahead of that one, of all that
it was ahead of, and of all that did not come strictly before it. -/
structure Ahead (before : κ → κ → Bool) (p : κ → Prop) (ahead : κ → κ → Prop) : Prop where
  held {a b : κ} : p a → p b → before a b = true → ahead a b
  passed {a b c : κ} : p a → p b → p c → before a b = true → ahead b c → ahead a c
  refused {a b c : κ} : p a → p b → p c → before a b = true → before c b = false → ahead a c

/-- In a strict weak order what is held comes strictly before all that was offered earlier. -/
theorem ahead_of_strictWeakOn {before : κ → κ → Bool} {p : κ → Prop}
    (order : StrictWeakOn before p) : Ahead before p fun a b => before a b = true := by
  have hrefused {a b c : κ} (ha : p a) (hb : p b) (hc : p c) (hab : before a b = true)
      (hcb : before c b = false) : before a c = true := by
    cases hac : before a c with
    | true => rfl
    | false =>
        rw [order.trans hb hc ha hcb hac] at hab
        cases hab
  exact ⟨fun _ _ hab => hab,
    fun ha hb hc hab hbc => hrefused ha hb hc hab (order.asymm hb hc hbc), hrefused⟩

/-- Of times, NaN among them or not, what is held has none at or below it that was offered
earlier. -/
theorem ahead_lt {τ : Type} [Timescale τ] [Timescale.Ordered τ] :
    Ahead (fun a b : τ => decide (a < b)) (fun _ => True) fun a b => ¬b ≤ a where
  held _ _ hab := (Timescale.Ordered.lt_iff.mp (of_decide_eq_true hab)).2
  passed _ _ _ hab hbc hca :=
    hbc (Timescale.Ordered.le_trans hca (Timescale.le_of_lt (of_decide_eq_true hab)))
  refused {a b c} _ _ _ hab hcb hca := by
    obtain ⟨hab, hba⟩ := Timescale.Ordered.lt_iff.mp (of_decide_eq_true hab)
    refine of_decide_eq_false hcb (Timescale.Ordered.lt_iff.mpr ?_)
    exact ⟨Timescale.Ordered.le_trans hca hab, fun hbc => hba (Timescale.Ordered.le_trans hbc hca)⟩

namespace Selection

variable {α : Type} {before : κ → κ → Bool} {p : κ → Prop} {ahead : κ → κ → Prop}

/-- `x` stands in a list of offers behind those that it is ahead of and in front of those that
do not come strictly before it. -/
def Splits (before : κ → κ → Bool) (ahead : κ → κ → Prop) (xs : List (κ × α)) (x : κ × α) : Prop :=
  ∃ front back, xs = front ++ x :: back ∧ (∀ y ∈ front, ahead x.1 y.1) ∧
    ∀ y ∈ back, before y.1 x.1 = false

/-- One more offer is held, or refused. -/
theorem splits_offer (h : Ahead before p ahead) {xs : List (κ × α)} {kept x offered : κ × α}
    (hxs : ∀ y ∈ xs, p y.1) (hoffered : p offered.1) (hkept : Splits before ahead xs kept)
    (hx : offer before (some kept) offered = some x) :
    Splits before ahead (xs ++ [offered]) x := by
  obtain ⟨front, back, rfl, hfront, hback⟩ := hkept
  have hkept : p kept.1 := hxs kept (List.mem_append_right _ List.mem_cons_self)
  unfold offer at hx
  dsimp only at hx
  split at hx
  next hbefore =>
    obtain rfl := Option.some.inj hx
    refine ⟨front ++ kept :: back, [], rfl, fun y hy => ?_, fun y hy => absurd hy List.not_mem_nil⟩
    have hy' : p y.1 := hxs y hy
    obtain hy | rfl | hy := (List.mem_append.mp hy).imp_right List.mem_cons.mp
    · exact h.passed hoffered hkept hy' hbefore (hfront y hy)
    · exact h.held hoffered hkept hbefore
    · exact h.refused hoffered hkept hy' hbefore (hback y hy)
  next hbehind =>
    obtain rfl := Option.some.inj hx
    refine ⟨front, back ++ [offered], by simp, hfront, fun y hy => ?_⟩
    obtain hy | hy := List.mem_append.mp hy
    · exact hback y hy
    · rw [List.mem_singleton.mp hy]
      exact Bool.eq_false_iff.mpr hbehind

/-- **What is held in the end** is ahead of all that was offered before it, and nothing that was
offered behind it comes strictly before it. -/
theorem splits_of_firstLeast (h : Ahead before p ahead) {xs : List (κ × α)} {x : κ × α}
    (hxs : ∀ y ∈ xs, p y.1) (hx : firstLeast before xs = some x) : Splits before ahead xs x := by
  induction xs using List.reverseRecOn generalizing x with
  | nil => cases hx
  | append_singleton xs offered ih =>
      have hoffered : p offered.1 := hxs offered (List.mem_append_right _ List.mem_cons_self)
      have hrest (y : κ × α) (hy : y ∈ xs) : p y.1 := hxs y (List.mem_append_left _ hy)
      rw [firstLeast_append, List.foldl_cons, List.foldl_nil] at hx
      cases hheld : firstLeast before xs with
      | none =>
          rw [hheld] at hx
          obtain rfl := Option.some.inj hx
          rw [firstLeast_eq_none_iff.mp hheld]
          exact ⟨[], [], rfl, fun y hy => absurd hy List.not_mem_nil,
            fun y hy => absurd hy List.not_mem_nil⟩
      | some kept =>
          rw [hheld] at hx
          exact splits_offer h hrest hoffered (ih hrest hheld) hx

/-- The first element with the least key is ahead of all elements before it, and none behind it
has a key strictly before its own. -/
theorem exists_split_of_firstLeastOn (h : Ahead before p ahead) {key : α → κ} {xs : List α} {x : α}
    (hxs : ∀ y ∈ xs, p (key y)) (hx : firstLeastOn before key xs = some x) :
    ∃ front back, xs = front ++ x :: back ∧ (∀ y ∈ front, ahead (key x) (key y)) ∧
      ∀ y ∈ back, before (key y) (key x) = false := by
  obtain ⟨⟨k, z⟩, hheld, rfl⟩ := Option.map_eq_some_iff.mp hx
  have hkeys : ∀ y ∈ xs.map fun x => (key x, x), p y.1 := by
    simpa only [List.forall_mem_map] using hxs
  obtain ⟨front, back, hsplit, hfront, hback⟩ := splits_of_firstLeast h hkeys hheld
  obtain ⟨front, rest, rfl, rfl, hrest⟩ := List.map_eq_append_iff.mp hsplit
  obtain ⟨x, back, rfl, hpair, rfl⟩ := List.map_eq_cons_iff.mp hrest
  obtain ⟨rfl, rfl⟩ := Prod.mk.inj hpair
  exact ⟨front, back, rfl, by simpa only [List.forall_mem_map] using hfront,
    by simpa only [List.forall_mem_map] using hback⟩

/-! ## changing what is offered -/

variable {β : Type}

/-- What is held does not depend on what comes with the keys. -/
theorem firstLeast_map (before : κ → κ → Bool) (f : α → β) (xs : List (κ × α)) :
    firstLeast before (xs.map fun x => (x.1, f x.2)) =
      (firstLeast before xs).map fun x => (x.1, f x.2) := by
  have hoffer (held : Option (κ × α)) (offered : κ × α) :
      offer before (held.map fun x => (x.1, f x.2)) (offered.1, f offered.2) =
        (offer before held offered).map fun x => (x.1, f x.2) := by
    cases held with
    | none => rfl
    | some kept =>
        unfold offer
        dsimp only [Option.map_some]
        split <;> rfl
  induction xs using List.reverseRecOn with
  | nil => rfl
  | append_singleton xs offered ih =>
      rw [List.map_append, firstLeast_append, firstLeast_append, ih]
      exact hoffer _ _

/-- A change that keeps the keys changes the element that is taken and no more. -/
theorem firstLeastOn_map (before : κ → κ → Bool) (key : β → κ) (f : α → β) (xs : List α) :
    firstLeastOn before key (xs.map f) = (firstLeastOn before (fun x => key (f x)) xs).map f := by
  have hmap := firstLeast_map before f (xs.map fun x => (key (f x), x))
  rw [List.map_map] at hmap
  unfold firstLeastOn
  rw [List.map_map, Option.map_map]
  exact (congrArg (Option.map (·.2)) hmap).trans (Option.map_map _ _ _)

end Selection

end SharedLink
