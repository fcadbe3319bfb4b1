import SharedLink.Proofs.Placement
import SharedLink.Proofs.Times

/-!
# SharedLink.Proofs.Entries

What a plan holds of the placements that it comes from.

* `find?_eq_some_iff` — a task is found at its rank just if it is the entry there;
* `Planned.perm_order` — every task is placed exactly once;
* `Planned.mem_placed_iff` — a task is found in just the slot that it was placed in.
-/

namespace SharedLink

open Timescale

variable {τ : Type} [Timescale τ]

/-- A slot is sent and received at times that are not NaN. -/
def Slot.IsNumeric (slot : Slot τ) : Prop := IsNumber slot.sendStart ∧ IsNumber slot.receiveEnd

instance Slot.decidableIsNumeric (slot : Slot τ) : Decidable slot.IsNumeric :=
  inferInstanceAs (Decidable (IsNumber slot.sendStart ∧ IsNumber slot.receiveEnd))

theorem Slot.isNumeric_rat (slot : Slot Rat) : slot.IsNumeric := ⟨Rat.le_refl, Rat.le_refl⟩

omit [Timescale τ] in
/-- Where no task is placed twice, a task is found in the slot that it was placed in. -/
theorem Draft.slotOf?_of_mem {d : Draft τ} (hnodup : d.order.Nodup) {id : Int} {slot : Slot τ}
    (h : (id, slot) ∈ d.placed) : d.slotOf? id = some slot := by
  obtain ⟨xs, ys, hplaced⟩ := List.append_of_mem h
  unfold slotOf?
  rw [List.lookup_eq_some_iff]
  refine ⟨xs, ys, hplaced, fun entry hentry => ?_⟩
  unfold order at hnodup
  rw [hplaced, List.map_append, List.nodup_append] at hnodup
  have hne := hnodup.2.2 entry.1 (List.mem_map_of_mem hentry) id List.mem_cons_self
  exact bne_iff_ne.mpr fun heq => hne heq.symm

omit [Timescale τ] in
/-- What is found was placed. -/
theorem Draft.mem_of_slotOf? {d : Draft τ} {id : Int} {slot : Slot τ}
    (h : d.slotOf? id = some slot) : (id, slot) ∈ d.placed := by
  obtain ⟨xs, ys, hplaced, -⟩ := List.lookup_eq_some_iff.mp h
  rw [hplaced]
  exact List.mem_append_right xs List.mem_cons_self

namespace Plan

/-- All tasks of a plan are sent and received at times that are not NaN. -/
def HasNumericSlots (p : Plan τ) : Prop := ∀ entry ∈ p.entries, entry.2.IsNumeric

instance decidableHasNumericSlots (p : Plan τ) : Decidable p.HasNumericSlots :=
  inferInstanceAs (Decidable (∀ entry ∈ p.entries, entry.2.IsNumeric))

/-- In exact arithmetic every slot is numeric. -/
theorem hasNumericSlots_rat (p : Plan Rat) : p.HasNumericSlots :=
  fun entry _ => entry.2.isNumeric_rat

omit [Timescale τ] in
/-- Where no task has two entries, a task is found at a rank just if it is the entry there. -/
theorem find?_eq_some_iff {p : Plan τ} (hnodup : p.priority.Nodup) {id : Int} {slot : Slot τ}
    {rank : Nat} : p.find? id = some (slot, rank) ↔ p.entries[rank]? = some (id, slot) := by
  unfold find?
  rw [Option.map_eq_some_iff]
  constructor
  · intro ⟨⟨⟨id', slot'⟩, rank'⟩, hfind, heq⟩
    obtain ⟨rfl, rfl⟩ := Prod.mk.inj heq
    have hid : id' = id := by simpa using List.find?_some hfind
    rw [← hid]
    exact List.mem_zipIdx_iff_getElem?.mp (List.mem_of_find?_eq_some hfind)
  · intro hrank
    have hmem : ((id, slot), rank) ∈ p.entries.zipIdx := List.mem_zipIdx_iff_getElem?.mpr hrank
    cases hfind : p.entries.zipIdx.find? (·.1.1 == id) with
    | none => exact absurd (List.find?_eq_none.mp hfind _ hmem) (by simp)
    | some found =>
        obtain ⟨⟨id', slot'⟩, rank'⟩ := found
        have hid : id' = id := by simpa using List.find?_some hfind
        have hrank' : p.entries[rank']? = some (id', slot') :=
          List.mem_zipIdx_iff_getElem?.mp (List.mem_of_find?_eq_some hfind)
        have hpriority : p.priority[rank]? = some id := by simp [priority, hrank]
        have hpriority' : p.priority[rank']? = some id := by simp [priority, hrank', hid]
        obtain ⟨hlt, -⟩ := List.getElem?_eq_some_iff.mp hpriority
        have hsame : rank = rank' :=
          (List.getElem?_inj hlt hnodup).mp (hpriority.trans hpriority'.symm)
        rw [← hsame, hrank, Option.some.injEq, Prod.mk.injEq] at hrank'
        exact ⟨_, rfl, by rw [hsame, hrank'.2]⟩

variable {w : Workflow} {hosts : List Host} {padding : Quantity} {platform : Platform τ}
  {first last : Draft τ} {p : Plan τ}

/-- The order of a plan lists one task after the other, each after its parents. -/
theorem Planned.follows (h : Planned w hosts padding platform first last p) :
    w.Follows [] p.order := by
  rw [h.order]
  exact h.reaches.follows_nil h.starts.placed

theorem Planned.nodup_order (h : Planned w hosts padding platform first last p) :
    p.order.Nodup := Workflow.nodup_of_follows .nil h.follows

/-- **Coverage**: every task is placed exactly once, and nothing else is. -/
theorem Planned.perm_order (h : Planned w hosts padding platform first last p) :
    p.order.Perm w.ids := by
  have hnodup : w.ids.Nodup := w.nodup_ids
  rw [List.perm_ext_iff_of_nodup h.nodup_order hnodup]
  intro id
  constructor
  · intro hid
    exact List.contains_iff_mem.mp (Workflow.contains_of_follows h.follows id hid)
  · intro hid
    rw [h.order]
    exact h.complete id hid

theorem Planned.perm_entries (h : Planned w hosts padding platform first last p) :
    p.entries.Perm last.placed := by
  rw [h.entries]
  exact perm_entries_ofDraft last []

theorem Planned.perm_priority (h : Planned w hosts padding platform first last p) :
    p.priority.Perm w.ids := by
  refine (h.perm_entries.map _).trans ?_
  have horder : last.placed.map (·.1) = p.order := h.order.symm
  rw [horder]
  exact h.perm_order

theorem Planned.nodup_priority (h : Planned w hosts padding platform first last p) :
    p.priority.Nodup := h.perm_priority.nodup_iff.mpr w.nodup_ids

/-- A task is found in just the slot that it was placed in. -/
theorem Planned.mem_placed_iff (h : Planned w hosts padding platform first last p) {id : Int}
    {slot : Slot τ} : (id, slot) ∈ last.placed ↔ ∃ rank, p.find? id = some (slot, rank) := by
  simp only [find?_eq_some_iff h.nodup_priority, ← List.mem_iff_getElem?, h.perm_entries.mem_iff]

/-- The slots of a plan are those of its draft. -/
theorem Planned.slotOf?_eq (h : Planned w hosts padding platform first last p) (id : Int) :
    last.slotOf? id = (p.find? id).map (·.1) := by
  have hnodup : last.order.Nodup := h.reaches.nodup_order h.starts.placed
  cases hfind : p.find? id with
  | some found =>
      obtain ⟨slot, rank⟩ := found
      exact Draft.slotOf?_of_mem hnodup (h.mem_placed_iff.mpr ⟨rank, hfind⟩)
  | none =>
      cases hslot : last.slotOf? id with
      | none => rfl
      | some slot =>
          obtain ⟨rank, hsome⟩ := h.mem_placed_iff.mp (Draft.mem_of_slotOf? hslot)
          rw [hfind] at hsome
          cases hsome

/-- Every task is found. -/
theorem Planned.exists_find? (h : Planned w hosts padding platform first last p) {id : Int}
    (hid : id ∈ w.ids) : ∃ slot rank, p.find? id = some (slot, rank) := by
  obtain ⟨⟨id', slot⟩, hentry, rfl⟩ := List.mem_map.mp (h.perm_priority.mem_iff.mpr hid)
  exact ⟨slot, h.mem_placed_iff.mp (h.perm_entries.mem_iff.mp hentry)⟩

/-! ## a plan of a workflow with a cycle -/

/-- A task in front of two tasks that wait for each other; it alone sends something. -/
def loop : Workflow where
  tasks := [
    { Task.make 1 2 1 none none with
      children := [2], files := [{ name := "data", size := 1, kind := .output }] },
    { Task.make 2 3 1 none none with parents := [1, 3], children := [3] },
    { Task.make 3 1 1 none none with parents := [2], children := [2] }]
  nodup_ids := by decide

/-- A host of unit speed behind a link of one byte per second. -/
def loopHost : Host where
  name := "host"
  speed := 1
  bandwidth := 8
  cores := 1
  state := .idle

/-- The plan of the workflow on this host, with a padding of one second. -/
def loopPlan (τ : Type) [Timescale τ] : Plan τ where
  entries := [(1, ⟨0, 3, 4⟩), (3, ⟨2, 5, 5⟩), (2, ⟨6, 9, 9⟩)]
  order := [1, 3, 2]
  infeasible := []
  timeline := ⟨[⟨0 - 1, 2⟩, ⟨1, 3⟩, ⟨2, 5⟩, ⟨4, 6⟩, ⟨5, 7⟩, ⟨8, 10⟩]⟩

theorem build_loop_float : build Float loop [loopHost] 3 1 = .ok (loopPlan Float) := by
  decide +kernel

theorem build_loop_rat : build Rat loop [loopHost] 3 1 = .ok (loopPlan Rat) := by
  decide +kernel

end Plan

end SharedLink
