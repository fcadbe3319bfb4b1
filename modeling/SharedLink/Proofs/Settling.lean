import SharedLink.Proofs.Entries
import SharedLink.Proofs.Turns

/-!
# SharedLink.Proofs.Settling

What settling a task places.

In a checked workflow, with the costs of all tasks known, settling places a task and those
that lead to it past the placed ones, whatever was placed before and whatever cycles
there are.  So, from an empty draft on, what is placed is closed under parents, and
is the same set in whatever order the tasks are settled.

* `Settles` — the task and what leads to it, once each and the task last, behind what was placed;
* `Draft.mem_order_settleEach` — what is placed once each task of a list has been settled;
* `settles_of_check` — settling ends, places just that, and does not depend on its order.
-/

namespace SharedLink

open Timescale

/-! ## sets of placed tasks -/

namespace Workflow

variable {w : Workflow} {order : List Int} {id x : Int}

/-- With each of the tasks come its parents. -/
def Closed (w : Workflow) (order : List Int) : Prop :=
  ∀ child ∈ order, ∀ parent ∈ w.parentsOf child, parent ∈ order

/-- In what is closed, nothing leads outside. -/
theorem Closed.mem_of_leads (h : w.Closed order) (hid : id ∈ order) (hleads : w.Leads [] id x) :
    x ∈ order := by
  induction hleads with
  | refl => exact hid
  | tail _ hlink ih => exact h _ ih _ hlink.1

/-- Past what is closed the same tasks are reached as from anywhere, up to those in it. -/
theorem Closed.leads_iff (h : w.Closed order) :
    x ∈ order ∨ w.Leads order id x ↔ x ∈ order ∨ w.Leads [] id x := by
  constructor
  · intro hx
    refine hx.imp_right fun hleads => Relation.ReflTransGen.mono ?_ _ _ hleads
    exact fun child parent hlink => ⟨hlink.1, List.not_mem_nil⟩
  · intro hx
    cases hx with
    | inl hmem => exact .inl hmem
    | inr hleads =>
        induction hleads with
        | refl => exact .inr .refl
        | @tail child parent _ hlink ih =>
            by_cases hparent : parent ∈ order
            · exact .inl hparent
            · cases ih with
              | inl hchild => exact .inl (h child hchild parent hlink.1)
              | inr hchild => exact .inr (hchild.tail ⟨hlink.1, hparent⟩)

end Workflow

namespace Draft

variable {τ : Type} [Timescale τ]

/-- A draft has the cost of every task of a workflow, as it was found together with the
padding when the draft was started; the workflow may have grown since, and any tasks
may have been placed. -/
structure Knows (d : Draft τ) (w : Workflow) : Prop where
  started : ∃ former platform padding first, start former platform padding = .ok first ∧
    d.costs = first.costs ∧ d.padding = first.padding
  costs : ∀ id, w.contains id = true → ∃ cost, d.costOf id = .ok cost

/-- A task is settled: nothing happens if it is placed; otherwise the task and what leads to it
past the placed tasks is placed behind them, each task once and the task itself last, which
takes finitely many turns. -/
structure Settles (w : Workflow) (d : Draft τ) (id : Int) (d' : Draft τ) : Prop where
  idle : id ∈ d.order → d' = d
  adds : id ∉ d.order → ∃ added, d'.placed = d.placed ++ added ∧
    w.Adds d.order id (added.map (·.1)) ∧ Turns w ⟨[⟨id, w.parentsOf id⟩], d⟩ ⟨[], d'⟩
  keeps : ∀ other ∈ d.order, d'.slotOf? other = d.slotOf? other

/-- Settle each task of a list, as far as it can be settled. -/
def settleEach (w : Workflow) (d : Draft τ) (ids : List Int) : Draft τ :=
  ids.foldl (fun d id => (d.settle w id).1) d

variable {w : Workflow} {d d' : Draft τ} {id : Int}

/-- Where costs were found, no transfer takes a negative time. -/
theorem Knows.prepared [Arithmetic τ] (h : d.Knows w) : Prepared w d := by
  obtain ⟨former, platform, padding, first, hstart, hcosts, hpadding⟩ := h.started
  have hstarts := starts_of_start hstart
  refine ⟨fun id hid => ?_, ?_⟩
  · obtain ⟨cost, hcost⟩ := h.costs id hid
    have hlookup := costOf_eq_ok_iff.mp hcost
    rw [hcosts] at hlookup ⊢
    exact ⟨cost, hlookup, hstarts.transfer_nonneg hlookup⟩
  · rw [hpadding]
    exact hstarts.padding_nonneg

/-- A draft has the costs that it is started with. -/
theorem knows_of_start [Arithmetic τ] {platform : Platform τ} {padding : Quantity}
    (h : start w platform padding = .ok d) : d.Knows w where
  started := ⟨w, platform, padding, d, h, rfl, rfl⟩
  costs _ hid := (starts_of_start h).prepared.costOf hid

omit [Timescale τ] in
/-- What is placed behind others does not change where they are found. -/
theorem slotOf?_of_append {added : List (Int × Slot τ)} (hplaced : d'.placed = d.placed ++ added)
    (hid : id ∈ d.order) : d'.slotOf? id = d.slotOf? id := by
  obtain ⟨entry, hentry, rfl⟩ := List.mem_map.mp hid
  have hsome : (d.placed.lookup entry.1).isSome = true := by
    rw [List.lookup_isSome_iff]
    exact ⟨entry, hentry, beq_self_eq_true _⟩
  unfold slotOf?
  rw [hplaced, List.lookup_append, Option.or_of_isSome hsome]

/-! ## one task -/

/-- Nothing is settled that is placed. -/
theorem settle_of_mem (hid : id ∈ d.order) : d.settle w id = (d, none) := by
  have hwalk : w.ancestry d.order id = ⟨d.order ++ [], none⟩ := by
    unfold Workflow.ancestry
    rw [if_pos (List.contains_iff_mem.mpr hid), List.append_nil]
  rw [settle_eq hwalk]
  rfl

/-- Nothing is placed for what is no task. -/
theorem settle_of_not_contains (htask : ¬w.contains id = true) : (d.settle w id).1 = d := by
  have hwalk : (w.ancestry d.order id).order = d.order := by
    unfold Workflow.ancestry
    rw [if_neg htask]
    split <;> rfl
  unfold settle
  dsimp only
  rw [hwalk, List.drop_length]
  rfl

/-- However settling one task after the other goes, what it comes to is reached. -/
theorem reaches_settleEach (w : Workflow) (d : Draft τ) (ids : List Int) :
    Reaches w d (d.settleEach w ids) := by
  unfold settleEach
  induction ids generalizing d with
  | nil => exact .refl
  | cons id rest ih => exact (reaches_settle w d id).trans (ih _)

variable [Arithmetic τ]

/-- **Settling**: a task of a checked workflow is settled, whatever has been placed. -/
theorem Prepared.exists_settles (h : Prepared w d) (hrec : w.Reciprocal)
    (hid : w.contains id = true) :
    ∃ d', d.settle w id = (d', none) ∧ Settles w d id d' ∧ Prepared w d' := by
  by_cases hplaced : id ∈ d.order
  · refine ⟨d, settle_of_mem hplaced, ⟨fun _ => rfl, fun hnew => ?_, fun _ _ => rfl⟩, h⟩
    exact absurd hplaced hnew
  · obtain ⟨new, d', hadvances, hsettle, hadds⟩ := exists_turns hrec h hid hplaced
    obtain ⟨added, hbehind, rfl⟩ := placed_placeAll hadvances.placed
    have hprepared : Prepared w d' := h.of_placeAll hadvances.placed
    refine ⟨d', hsettle, ⟨fun hmem => absurd hmem hplaced, fun _ => ?_, ?_⟩, hprepared⟩
    · exact ⟨added, hbehind, hadds, hadvances.turns⟩
    · exact fun other hother => slotOf?_of_append hbehind hother

/-! ## one task after the other -/

/-- What is settled leaves the costs and the padding as they were. -/
theorem Prepared.settle (h : Prepared w d) (hrec : w.Reciprocal) (id : Int) :
    Prepared w (d.settle w id).1 := by
  by_cases hid : w.contains id = true
  · obtain ⟨d', hsettle, -, hprepared⟩ := h.exists_settles hrec hid
    rwa [hsettle]
  · rwa [settle_of_not_contains hid]

/-- What is placed after a task has been settled: what was, and what leads to the task. -/
theorem mem_order_settle (h : Prepared w d) (hrec : w.Reciprocal) (hclosed : w.Closed d.order)
    (id x : Int) :
    x ∈ (d.settle w id).1.order ↔
      x ∈ d.order ∨ w.contains id = true ∧ w.Leads [] id x := by
  by_cases hid : w.contains id = true
  · by_cases hplaced : id ∈ d.order
    · rw [settle_of_mem hplaced]
      exact ⟨.inl, fun hx => hx.elim (·) fun hleads => hclosed.mem_of_leads hplaced hleads.2⟩
    · obtain ⟨d', hsettle, hsettles, -⟩ := h.exists_settles hrec hid
      obtain ⟨added, hbehind, hadds, -⟩ := hsettles.adds hplaced
      have horder : d'.order = d.order ++ added.map (·.1) := by
        unfold order
        rw [hbehind, List.map_append]
      rw [hsettle, horder, List.mem_append, hadds.mem_iff, hclosed.leads_iff]
      simp [hid]
  · rw [settle_of_not_contains hid]
    simp [hid]

/-- What leads to some tasks and was not there before is closed together with what was. -/
theorem closed_of_leads {order before : List Int} {ids : List Int} (hbefore : w.Closed before)
    (horder : ∀ x, x ∈ order ↔
      x ∈ before ∨ ∃ id ∈ ids, w.contains id = true ∧ w.Leads [] id x) : w.Closed order := by
  intro child hchild parent hparent
  rw [horder] at hchild ⊢
  cases hchild with
  | inl hmem => exact .inl (hbefore child hmem parent hparent)
  | inr hleads =>
      obtain ⟨id, hid, htask, hleads⟩ := hleads
      exact .inr ⟨id, hid, htask, hleads.tail ⟨hparent, List.not_mem_nil⟩⟩

/-- **Settling one task after the other** places what leads to any of them. -/
theorem mem_order_settleEach (h : Prepared w d) (hrec : w.Reciprocal)
    (hclosed : w.Closed d.order) (ids : List Int) (x : Int) :
    x ∈ (d.settleEach w ids).order ↔
      x ∈ d.order ∨ ∃ id ∈ ids, w.contains id = true ∧ w.Leads [] id x := by
  induction ids generalizing d with
  | nil => simp [settleEach]
  | cons id rest ih =>
      have hone := mem_order_settle h hrec hclosed id
      have hnext : w.Closed (d.settle w id).1.order := by
        have hmem (y : Int) : y ∈ (d.settle w id).1.order ↔
            y ∈ d.order ∨ ∃ other ∈ [id], w.contains other = true ∧ w.Leads [] other y := by
          rw [hone]
          simp
        exact closed_of_leads hclosed hmem
      have hrest := ih (h.settle hrec id) hnext
      unfold settleEach at hrest ⊢
      rw [List.foldl_cons, hrest, hone]
      simp only [List.mem_cons, exists_eq_or_imp]
      exact or_assoc

/-- **Settling** a task of a checked workflow, whatever has been placed, ends and places just
the task and what leads to it past the placed tasks, each once and the task last; and
from an empty draft on, settling tasks in any order places the same set of tasks, closed
under parents. -/
theorem settles_of_check (hcheck : w.check = .ok ()) (hd : d.Knows w) :
    (∀ id, w.contains id = true → ∃ d', d.settle w id = (d', none) ∧ Settles w d id d') ∧
    (d.placed = [] → ∀ ids,
      (∀ x, x ∈ (d.settleEach w ids).order ↔
        ∃ id ∈ ids, w.contains id = true ∧ w.Leads [] id x) ∧
      w.Closed (d.settleEach w ids).order ∧
      ∀ ids', ids'.Perm ids → ∀ x,
        x ∈ (d.settleEach w ids').order ↔ x ∈ (d.settleEach w ids).order) := by
  have hrec : w.Reciprocal := Workflow.check_eq_ok_iff.mp hcheck
  have hprepared : Prepared w d := hd.prepared
  refine ⟨fun id hid => ?_, fun hempty ids => ?_⟩
  · obtain ⟨d', hsettle, hsettles, -⟩ := hprepared.exists_settles hrec hid
    exact ⟨d', hsettle, hsettles⟩
  · have horder : d.order = [] := by
      unfold order
      rw [hempty, List.map_nil]
    have hclosed : w.Closed d.order := by
      rw [horder]
      exact fun child hchild => absurd hchild List.not_mem_nil
    have hmem := mem_order_settleEach hprepared hrec hclosed
    refine ⟨fun x => ?_, closed_of_leads hclosed (hmem ids), fun ids' hperm x => ?_⟩
    · rw [hmem, horder]
      simp
    · simp only [hmem, hperm.mem_iff]

/-- The draft that planning `Plan.loop` on its host starts with. -/
def loopDraft : Draft Float where
  padding := 1
  costs := [(1, ⟨2, 1⟩), (2, ⟨3, 0⟩), (3, ⟨1, 0⟩)]
  timeline := .empty
  placed := []

theorem start_loop : (do start Plan.loop (← Platform.ofHosts Float [Plan.loopHost]) 1) =
    .ok loopDraft := by decide +kernel

/-- On a cycle the walk goes round once: for the second task the first one and the third
one are placed, in the order in which they are listed, and then the task. -/
theorem settles_loop : ∃ d', Plan.loop.check = .ok () ∧ loopDraft.Knows Plan.loop ∧
    loopDraft.settle Plan.loop 2 = (d', none) ∧ d'.order = [1, 3, 2] ∧
    Settles Plan.loop loopDraft 2 d' ∧
    ∀ x, x ∈ (loopDraft.settleEach Plan.loop [2, 1]).order ↔
      x ∈ (loopDraft.settleEach Plan.loop [1, 2]).order := by
  have hcheck : Plan.loop.check = .ok () := by decide +kernel
  have hknows : loopDraft.Knows Plan.loop := by
    obtain ⟨platform, -, hstart⟩ := bind_eq_ok_iff.mp start_loop
    exact knows_of_start hstart
  obtain ⟨hone, heach⟩ := settles_of_check hcheck hknows
  obtain ⟨d', hsettle, hsettles⟩ := hone 2 (by decide)
  have hd' : d' = (loopDraft.settle Plan.loop 2).1 := by rw [hsettle]
  refine ⟨d', hcheck, hknows, hsettle, ?_, hsettles, ?_⟩
  · rw [hd']
    decide +kernel
  · exact (heach rfl [1, 2]).2.2 [2, 1] (List.Perm.swap 1 2 [])

end Draft

end SharedLink
