import Mathlib.Data.List.Forall2

/-!
# SharedLink.Proofs.Outcomes

When steps that may fail succeed in a row.

A sequence succeeds just if every step does, and what holds of every step then
holds of the whole.

* `mapM_eq_ok_iff`, `exists_mapM` — lists of steps that do not depend on each other;
* `rel_of_foldlM`, `exists_foldlM` — steps of which each takes what the last one left;
* `exists_error_of_mapM` — if a list of steps fails, one of them does.
-/

namespace SharedLink

variable {ε α β : Type}

theorem pure_eq_ok_iff {a b : α} : (pure a : Except ε α) = .ok b ↔ a = b :=
  ⟨Except.ok.inj, congrArg Except.ok⟩

/-- Two steps succeed just if the first does and the second then does. -/
theorem bind_eq_ok_iff {x : Except ε α} {f : α → Except ε β} {b : β} :
    (x >>= f) = .ok b ↔ ∃ a, x = .ok a ∧ f a = .ok b := by
  cases x with
  | error e =>
      constructor
      · intro h
        cases h
      · intro ⟨_, h, _⟩
        cases h
  | ok a =>
      constructor
      · intro h
        exact ⟨a, rfl, h⟩
      · intro ⟨a', ha, h⟩
        rw [Except.ok.inj ha]
        exact h

/-- Two steps fail just if the first does, or the second does then. -/
theorem bind_eq_error_iff {x : Except ε α} {f : α → Except ε β} {e : ε} :
    (x >>= f) = .error e ↔ x = .error e ∨ ∃ a, x = .ok a ∧ f a = .error e := by
  cases x with
  | error e' => simp [bind, Except.bind]
  | ok a => simp [bind, Except.bind]

/-- A list of steps succeeds just if each of them does. -/
theorem mapM_eq_ok_iff {f : α → Except ε β} {xs : List α} {ys : List β} :
    xs.mapM f = .ok ys ↔ List.Forall₂ (fun x y => f x = .ok y) xs ys := by
  induction xs generalizing ys with
  | nil =>
      rw [List.mapM_nil, pure_eq_ok_iff, List.forall₂_nil_left_iff]
      exact eq_comm
  | cons x xs ih =>
      simp only [List.mapM_cons, bind_eq_ok_iff, pure_eq_ok_iff, ih, List.forall₂_cons_left_iff]
      constructor
      · intro ⟨y, hy, ys', hys, h⟩
        exact ⟨y, ys', hy, hys, h.symm⟩
      · intro ⟨y, ys', hy, hys, h⟩
        exact ⟨y, hy, ys', hys, h.symm⟩

/-- Steps of which the results are known succeed with these. -/
theorem mapM_eq_ok_map {f : α → Except ε β} {g : α → β} {xs : List α}
    (h : ∀ x ∈ xs, f x = .ok (g x)) : xs.mapM f = .ok (xs.map g) :=
  mapM_eq_ok_iff.mpr (List.forall₂_map_right_iff.mpr (List.forall₂_same.mpr h))

/-- Each step of a list gives one of the results. -/
theorem exists_mem_of_mapM {f : α → Except ε β} {xs : List α} {ys : List β}
    (h : xs.mapM f = .ok ys) {x : α} (hx : x ∈ xs) : ∃ y ∈ ys, f x = .ok y := by
  induction mapM_eq_ok_iff.mp h with
  | nil => cases hx
  | @cons u v us vs huv hrest ih =>
      cases List.mem_cons.mp hx with
      | inl heq => exact ⟨v, List.mem_cons_self, heq ▸ huv⟩
      | inr hx =>
          obtain ⟨y, hy, hxy⟩ := ih (mapM_eq_ok_iff.mpr hrest) hx
          exact ⟨y, List.mem_cons_of_mem v hy, hxy⟩

/-- Each result is that of a step of the list. -/
theorem exists_source_of_mapM {f : α → Except ε β} {xs : List α} {ys : List β}
    (h : xs.mapM f = .ok ys) {y : β} (hy : y ∈ ys) : ∃ x ∈ xs, f x = .ok y := by
  induction mapM_eq_ok_iff.mp h with
  | nil => cases hy
  | @cons u v us vs huv hrest ih =>
      cases List.mem_cons.mp hy with
      | inl heq => exact ⟨u, List.mem_cons_self, heq ▸ huv⟩
      | inr hy =>
          obtain ⟨x, hx, hxy⟩ := ih (mapM_eq_ok_iff.mpr hrest) hy
          exact ⟨x, List.mem_cons_of_mem u hx, hxy⟩

/-- A list of steps succeeds if each of them does. -/
theorem exists_mapM {f : α → Except ε β} {xs : List α} (h : ∀ x ∈ xs, ∃ y, f x = .ok y) :
    ∃ ys, xs.mapM f = .ok ys := by
  induction xs with
  | nil => exact ⟨[], rfl⟩
  | cons x xs ih =>
      obtain ⟨⟨y, hy⟩, hrest⟩ := List.forall_mem_cons.mp h
      obtain ⟨ys, hys⟩ := ih hrest
      exact ⟨y :: ys, mapM_eq_ok_iff.mpr (.cons hy (mapM_eq_ok_iff.mp hys))⟩

/-- Steps that put a key to what they are given succeed with the same list, keyed. -/
theorem exists_mapM_keyed {f : α → Except ε (β × α)} {xs : List α}
    (h : ∀ x ∈ xs, ∃ key, f x = .ok (key, x)) : ∃ ys, xs.mapM f = .ok ys ∧ ys.map (·.2) = xs := by
  induction xs with
  | nil => exact ⟨[], rfl, rfl⟩
  | cons x xs ih =>
      obtain ⟨⟨key, hkey⟩, hrest⟩ := List.forall_mem_cons.mp h
      obtain ⟨ys, hys, hsame⟩ := ih hrest
      refine ⟨(key, x) :: ys, mapM_eq_ok_iff.mpr (.cons hkey (mapM_eq_ok_iff.mp hys)), ?_⟩
      rw [List.map_cons, hsame]

/-- Of steps that put a key to what they are given, each result is what its own element gives. -/
theorem keyed_of_mapM {f : α → Except ε (β × α)} (hkeep : ∀ x y, f x = .ok y → y.2 = x)
    {xs : List α} {ys : List (β × α)} (h : xs.mapM f = .ok ys) :
    ys.map (·.2) = xs ∧ ∀ y ∈ ys, f y.2 = .ok y := by
  induction mapM_eq_ok_iff.mp h with
  | nil => exact ⟨rfl, fun y hy => absurd hy List.not_mem_nil⟩
  | @cons x y xs ys hxy hrest ih =>
      obtain ⟨hkeys, hresults⟩ := ih (mapM_eq_ok_iff.mpr hrest)
      have hx := hkeep x y hxy
      rw [List.map_cons, hkeys, hx]
      refine ⟨rfl, List.forall_mem_cons.mpr ⟨?_, hresults⟩⟩
      rw [hx]
      exact hxy

/-- A list of steps fails as one of them does. -/
theorem exists_error_of_mapM {f : α → Except ε β} {xs : List α} {e : ε}
    (h : xs.mapM f = .error e) : ∃ x ∈ xs, f x = .error e := by
  induction xs with
  | nil => cases h
  | cons x xs ih =>
      rw [List.mapM_cons] at h
      rcases bind_eq_error_iff.mp h with hx | ⟨y, -, h⟩
      · exact ⟨x, List.mem_cons_self, hx⟩
      · rcases bind_eq_error_iff.mp h with hxs | ⟨ys, -, h⟩
        · obtain ⟨z, hz, hfz⟩ := ih hxs
          exact ⟨z, List.mem_cons_of_mem x hz, hfz⟩
        · cases h

/-- So does a list of checks. -/
theorem exists_error_of_forM {f : α → Except ε Unit} {xs : List α} {e : ε}
    (h : xs.forM f = .error e) : ∃ x ∈ xs, f x = .error e := by
  induction xs with
  | nil => cases h
  | cons x xs ih =>
      have h : (f x >>= fun _ => xs.forM f) = .error e := h
      rcases bind_eq_error_iff.mp h with hx | ⟨_, -, hxs⟩
      · exact ⟨x, List.mem_cons_self, hx⟩
      · obtain ⟨y, hy, hfy⟩ := ih hxs
        exact ⟨y, List.mem_cons_of_mem x hy, hfy⟩

/-- Steps that are taken one after the other succeed just if the first does and the others then do. -/
theorem foldlM_cons_eq_ok_iff {f : β → α → Except ε β} {x : α} {xs : List α} {b b' : β} :
    (x :: xs).foldlM f b = .ok b' ↔ ∃ c, f b x = .ok c ∧ xs.foldlM f c = .ok b' := by
  rw [List.foldlM_cons]
  exact bind_eq_ok_iff

/-- Steps that are taken one after the other are related in all if each is. -/
theorem rel_of_foldlM {f : β → α → Except ε β} (r : β → β → Prop) (hrefl : ∀ b, r b b)
    (htrans : ∀ {a b c}, r a b → r b c → r a c) {xs : List α} {b b' : β}
    (step : ∀ b, ∀ x ∈ xs, ∀ b', f b x = .ok b' → r b b') (h : xs.foldlM f b = .ok b') :
    r b b' := by
  induction xs generalizing b with
  | nil =>
      rw [List.foldlM_nil, pure_eq_ok_iff] at h
      rw [h]
      exact hrefl b'
  | cons x xs ih =>
      obtain ⟨c, hc, h⟩ := foldlM_cons_eq_ok_iff.mp h
      have hrest := ih (fun b y hy => step b y (List.mem_cons_of_mem x hy)) h
      exact htrans (step b x List.mem_cons_self c hc) hrest

/-- Steps that are taken one after the other succeed if each does, whatever holds of
what it is given. -/
theorem exists_foldlM {f : β → α → Except ε β} (inv : β → Prop) {xs : List α} {b : β}
    (step : ∀ b, inv b → ∀ x ∈ xs, ∃ b', f b x = .ok b' ∧ inv b') (h : inv b) :
    ∃ b', xs.foldlM f b = .ok b' ∧ inv b' := by
  induction xs generalizing b with
  | nil => exact ⟨b, rfl, h⟩
  | cons x xs ih =>
      obtain ⟨c, hc, hinv⟩ := step b h x List.mem_cons_self
      obtain ⟨b', hb', hinv'⟩ := ih (fun b hb y hy => step b hb y (List.mem_cons_of_mem x hy)) hinv
      exact ⟨b', foldlM_cons_eq_ok_iff.mpr ⟨c, hc, hb'⟩, hinv'⟩

end SharedLink
