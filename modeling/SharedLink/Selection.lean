import SharedLink.Timescale

/-!
# SharedLink.Selection

Keeping the value with the smallest key seen so far, the first one among equals.

`offer` is one step, `firstLeast` a whole history.  Keys of several times are
compared place by place, a proper beginning being smaller.

* `firstLeast_append` — a history can be selected from in two parts.
-/

namespace SharedLink

namespace Selection

variable {κ α τ : Type}

/-- What is held after one more pair is offered: the pair itself if nothing was
held, or if its key is strictly before the one held. -/
def offer (before : κ → κ → Bool) (held : Option (κ × α)) (offered : κ × α) : Option (κ × α) :=
  match held with
  | none => some offered
  | some kept => if before offered.1 kept.1 then some offered else some kept

/-- What is held in the end. -/
def firstLeast (before : κ → κ → Bool) (offers : List (κ × α)) : Option (κ × α) :=
  offers.foldl (offer before) none

/-- What is held after each offer. -/
def history (before : κ → κ → Bool) : Option (κ × α) → List (κ × α) → List (Option (κ × α))
  | _, [] => []
  | held, offered :: rest =>
    let held := offer before held offered
    held :: history before held rest

/-- The first element with the least key. -/
def firstLeastOn (before : κ → κ → Bool) (key : α → κ) (xs : List α) : Option α :=
  (firstLeast before (xs.map fun x => (key x, x))).map (·.2)

/-- Keys of several times, compared at the first place where they differ. -/
def lexBefore [Timescale τ] : List τ → List τ → Bool
  | _, [] => false
  | [], _ :: _ => true
  | a :: as, b :: bs => if Timescale.same a b then lexBefore as bs else decide (a < b)

/-! ## laws of a history -/

/-- What is held after two histories follows from what is held after the first. -/
theorem firstLeast_append (before : κ → κ → Bool) (xs ys : List (κ × α)) :
    firstLeast before (xs ++ ys) = ys.foldl (offer before) (firstLeast before xs) := by
  simp [firstLeast]

/-- Something is held as soon as something was offered. -/
theorem firstLeast_eq_none_iff {before : κ → κ → Bool} {xs : List (κ × α)} :
    firstLeast before xs = none ↔ xs = [] := by
  cases xs with
  | nil => simp [firstLeast]
  | cons x xs =>
    suffices h : ∀ held : κ × α, (xs.foldl (offer before) (some held)) ≠ none by
      simp [firstLeast, offer, h]
    induction xs with
    | nil => simp
    | cons y ys ih => intro held; simp only [List.foldl_cons, offer]; split <;> exact ih _

/-- What is held was offered. -/
theorem mem_of_firstLeast {before : κ → κ → Bool} {xs : List (κ × α)} {x : κ × α}
    (h : firstLeast before xs = some x) : x ∈ xs := by
  suffices key : ∀ (held : Option (κ × α)), xs.foldl (offer before) held = some x →
      held = some x ∨ x ∈ xs by
    obtain h | h := key none h
    · cases h
    · exact h
  clear h
  induction xs with
  | nil => simp
  | cons y ys ih =>
    intro held h
    obtain h | h := ih _ h
    · cases held with
      | none => exact .inr (by simp_all [offer])
      | some kept =>
        simp only [offer] at h
        split at h
        · exact .inr (by simp_all)
        · exact .inl h
    · exact .inr (List.mem_cons_of_mem _ h)

/-- There is a first element with the least key as soon as there is an element. -/
theorem firstLeastOn_eq_none_iff {before : κ → κ → Bool} {key : α → κ} {xs : List α} :
    firstLeastOn before key xs = none ↔ xs = [] := by
  rw [firstLeastOn, Option.map_eq_none_iff, firstLeast_eq_none_iff, List.map_eq_nil_iff]

/-- The first element with the least key is one of the elements. -/
theorem mem_of_firstLeastOn {before : κ → κ → Bool} {key : α → κ} {xs : List α} {x : α}
    (h : firstLeastOn before key xs = some x) : x ∈ xs := by
  obtain ⟨⟨k, y⟩, hy, rfl⟩ := Option.map_eq_some_iff.1 h
  obtain ⟨z, hz, he⟩ := List.mem_map.1 (mem_of_firstLeast hy)
  cases he
  exact hz

end Selection

end SharedLink
