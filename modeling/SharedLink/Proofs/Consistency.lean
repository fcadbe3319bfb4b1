import SharedLink.Proofs.Ledgers
import SharedLink.Proofs.Legs
import SharedLink.Proofs.Vacancies

/-!
# SharedLink.Proofs.Consistency

What can be relied on between calls, whether they fail or not.

A ledger may be kept while its workflow grows, and then tasks that are settled may have
parents that are not there or whose cost was never found.  The call fails at the first of
these, somewhere among the ancestors, and what was committed by then stays.
Nevertheless all fields speak of the same tasks, two reservations are there for each of
them, and nothing that was committed before is touched.

The reservations are in order unless one of them is NaN.  No cost has to be NaN for that: two
infinite costs of different sign are enough.

* `Draft.Sound`, `Draft.Sound.reaches` — what every placement keeps;
* `Draft.Numbered.reaches` — where costs and padding are finite, no reservation is NaN;
* `Draft.lacks_of_settle` — settling fails for want of a task or of a cost only;
* `Ledger.consistent_of_start` — every ledger is consistent, and every call keeps it so.
-/

namespace SharedLink

open Timescale

variable {τ : Type} [Timescale τ]

/-! ## what is never taken back -/

/-- An insertion takes nothing out and changes no order. -/
theorem sublist_insertRight {α : Type} (before : α → α → Bool) (x : α) (xs : List α) :
    xs.Sublist (insertRight before x xs) := by
  unfold insertRight
  generalize upperBound before x xs 0 xs.length = place
  calc
    List.Sublist xs (xs.take place ++ xs.drop place) := by rw [List.take_append_drop]
    List.Sublist _ (xs.take place ++ x :: xs.drop place) :=
      (List.Sublist.refl _).append (List.sublist_cons_self x _)

theorem Timeline.sublist_reserve {t t' : Timeline τ} {start stop : τ}
    (h : t.reserve start stop = .ok t') : t.intervals.Sublist t'.intervals := by
  rw [Timeline.intervals_reserve h]
  exact sublist_insertRight _ _ _

namespace Draft

variable {w : Workflow} {first d d' : Draft τ} {id : Int}

/-- One draft holds all that another one holds, and has come to it by placing tasks. -/
structure Extends (d d' : Draft τ) : Prop where
  padding : d'.padding = d.padding
  costs : d'.costs = d.costs
  placed : d.placed <+: d'.placed
  reserved : d.timeline.intervals.Sublist d'.timeline.intervals

omit [Timescale τ] in
theorem Extends.refl (d : Draft τ) : Extends d d := ⟨rfl, rfl, List.prefix_rfl, .refl _⟩

omit [Timescale τ] in
theorem Extends.trans {d'' : Draft τ} (h : Extends d d') (h' : Extends d' d'') :
    Extends d d'' where
  padding := h'.padding.trans h.padding
  costs := h'.costs.trans h.costs
  placed := h.placed.trans h'.placed
  reserved := h.reserved.trans h'.reserved

/-- One placement extends a draft. -/
theorem extends_of_place (h : d.place w id = .ok d') : Extends d d' := by
  obtain ⟨t, cost, slot, sent, -, hplaces⟩ := places_of_place h
  refine ⟨hplaces.padding, hplaces.costs, ?_, ?_⟩
  · rw [hplaces.placed]
    exact List.prefix_append _ _
  · exact (Timeline.sublist_reserve hplaces.send).trans (Timeline.sublist_reserve hplaces.receive)

/-- So do placements in turn. -/
theorem Reaches.extends (h : Reaches w d d') : Extends d d' := by
  induction h with
  | refl => exact .refl d
  | place before next last ih => exact ih.trans (extends_of_place last)

/-! ## what every placement keeps -/

/-- No task is placed twice, what is reserved is the padded legs of the placed tasks, in order
unless one of them is NaN. -/
structure Sound (d : Draft τ) : Prop where
  nodup : d.order.Nodup
  accounted : d.Accounted
  sorted : d.timeline.IsNumeric → Sorted Timeline.before d.timeline.intervals

/-- A draft is sound when it is started. -/
theorem Starts.sound {platform : Platform τ} {padding : Quantity}
    (h : Starts w platform padding d) : Sound d := by
  have hreaches : Reaches w d d := .refl
  refine ⟨hreaches.nodup_order h.placed, hreaches.accounted h.placed h.timeline, fun _ => ?_⟩
  rw [h.timeline]
  exact .nil

section

variable [Ordered τ]

/-- Placing a task that is not placed keeps a draft sound. -/
theorem Sound.place (h : Sound d) (hnew : id ∉ d.order) (hplace : d.place w id = .ok d') :
    Sound d' := by
  obtain ⟨t, cost, slot, sent, -, hplaces⟩ := places_of_place hplace
  refine ⟨?_, hplaces.accounted h.accounted, fun hnum => ?_⟩
  · rw [order_place hplace]
    exact List.concat_eq_append ▸ h.nodup.concat hnew
  · exact hplaces.sorted_timeline hnum (h.sorted (hplaces.isNumeric_before hnum))

/-- So does placing tasks in turn, in whatever workflow. -/
theorem Sound.reaches (h : Sound d) (hreaches : Reaches w d d') : Sound d' := by
  induction hreaches with
  | refl => exact h
  | place before next last ih => exact ih.place next.unlisted last

end

/-! ## numbers -/

/-- Costs and a padding that lead from numbers to numbers. -/
structure Tame (d : Draft τ) : Prop where
  comp : ∀ entry ∈ d.costs, IsFinite entry.2.comp
  transfer : ∀ entry ∈ d.costs, IsFinite entry.2.transfer
  added : IsFinite d.padding
  taken : ∀ u, IsNumber u → IsNumber (u - d.padding)

/-- Of doubles the finite ones lead from numbers to numbers. -/
theorem tame_of_isFinite {d : Draft Float}
    (hcosts : ∀ entry ∈ d.costs,
      Binary64.isFinite entry.2.comp = true ∧ Binary64.isFinite entry.2.transfer = true)
    (hpadding : Binary64.isFinite d.padding = true) : Tame d where
  comp entry hentry := isFinite_float_iff.mpr (hcosts entry hentry).1
  transfer entry hentry := isFinite_float_iff.mpr (hcosts entry hentry).2
  added := isFinite_float_iff.mpr hpadding
  taken u hu := by
    have hneg : d.padding.toModel.unpack.neg.isFinite = true :=
      Binary64.isFinite_neg (Binary64.isFinite_unpack hpadding)
    have hsub : (u - d.padding).toModel.unpack =
        Binary64.added u.toModel.unpack d.padding.toModel.unpack.neg := by
      unfold Binary64.added
      rw [← Binary64.sub_unpacked_eq]
      rfl
    rw [Binary64.isNumber_iff] at hu ⊢
    rw [hsub]
    exact Binary64.isNaN_unpack_pack _ (Binary64.isNaN_add hu hneg)

theorem Tame.of_extends (h : Tame d) (hextends : Extends d d') : Tame d' := by
  obtain ⟨hpadding, hcosts, -, -⟩ := hextends
  refine ⟨?_, ?_, ?_, ?_⟩
  · rw [hcosts]
    exact h.comp
  · rw [hcosts]
    exact h.transfer
  · rw [hpadding]
    exact h.added
  · rw [hpadding]
    exact h.taken

/-- A padded leg from a number on is reserved between numbers. -/
theorem Tame.reserve {t t' : Timeline τ} {start transfer : τ} (h : Tame d) (ht : t.IsNumeric)
    (hstart : IsNumber start) (htransfer : IsFinite transfer)
    (hreserve : t.reserve (start - d.padding) (start + transfer + d.padding) = .ok t') :
    t'.IsNumeric := by
  intro i hi
  cases List.mem_cons.mp ((Timeline.perm_reserve hreserve).mem_iff.mp hi) with
  | inl hnew =>
      rw [hnew]
      exact ⟨h.taken _ hstart, h.added _ (htransfer _ hstart)⟩
  | inr hold => exact ht i hold

/-- What is reserved and when placed tasks end is all numbers. -/
structure Numbered (d : Draft τ) : Prop where
  timeline : d.timeline.IsNumeric
  ends : ∀ entry ∈ d.placed, IsNumber entry.2.receiveEnd

section

variable [Ordered τ]

/-- Parents that end at numbers let a task start at a number. -/
theorem Numbered.readyAt (h : Numbered d) (t : Task) : IsNumber (readyAt d.endOf? t) := by
  have hends (parent : Int) : IsNumber ((d.endOf? parent).getD 0) := by
    unfold endOf?
    cases hslot : d.slotOf? parent with
    | none => exact Ordered.isNumber_zero
    | some slot => exact h.ends _ (mem_of_slotOf? hslot)
  unfold Draft.readyAt
  cases t.parents with
  | nil => exact Ordered.isNumber_zero
  | cons parent rest =>
      have hparent := Ordered.isNumber_add_one (hends parent)
      exact Ordered.isNumber_right (le_foldl_larger _ hparent)

/-- One placement leads from numbers to numbers, where no infinite costs of different signs are
added. -/
theorem Numbered.place (hd : Numbered d) (htame : Tame d) (h : d.place w id = .ok d') :
    Numbered d' := by
  obtain ⟨t, cost, slot, sent, -, hplaces⟩ := places_of_place h
  obtain ⟨front, back, hcosts, -⟩ := List.lookup_eq_some_iff.mp hplaces.known
  have hmem : (t.id, cost) ∈ d.costs := by
    rw [hcosts]
    exact List.mem_append_right _ List.mem_cons_self
  have htransfer : IsFinite cost.transfer := htame.transfer _ hmem
  have hsend : IsNumber slot.sendStart := by
    rw [hplaces.sendStart]
    exact Ordered.isNumber_right (Timeline.le_earliestGap (hd.readyAt t))
  have hfinish : IsNumber (slot.sendStart + cost.transfer + cost.comp) :=
    htame.comp _ hmem _ (htransfer _ hsend)
  have hreceive : IsNumber slot.receiveStart := by
    rw [hplaces.receiveStart]
    exact Ordered.isNumber_right (Timeline.le_earliestGap hfinish)
  have hsent : sent.IsNumeric := htame.reserve hd.timeline hsend htransfer hplaces.send
  refine ⟨?_, fun entry hentry => ?_⟩
  · have hlast := hplaces.receive
    rw [hplaces.receiveEnd] at hlast
    exact htame.reserve hsent hreceive htransfer hlast
  · rw [hplaces.placed] at hentry
    cases List.mem_append.mp hentry with
    | inl hold => exact hd.ends entry hold
    | inr hnew =>
        rw [List.mem_singleton.mp hnew]
        dsimp only
        rw [hplaces.receiveEnd]
        exact htransfer _ hreceive

/-- Placements in turn lead from numbers to numbers. -/
theorem Numbered.reaches (hd : Numbered d) (htame : Tame d) (h : Reaches w d d') :
    Numbered d' := by
  induction h with
  | refl => exact hd
  | place before next last ih => exact ih.place (htame.of_extends before.extends) last

end

/-! ## why settling fails -/

variable [Arithmetic τ] {fault : Fault}

/-- Placing tasks in turn fails for want of a task or of a cost, and for nothing else. -/
theorem lacks_of_placeAll {new : List Int} (hd : d.Begun)
    (h : (d.placeAll w new).2 = some fault) : ∃ id, fault = .missing id ∧ w.Lacks d.costs id := by
  induction new generalizing d with
  | nil => cases h
  | cons id rest ih =>
      rw [placeAll] at h
      cases hplace : d.place w id with
      | ok next =>
          rw [hplace] at h
          have hcosts : next.costs = d.costs := (extends_of_place hplace).costs
          rw [← hcosts]
          exact ih (hd.place hplace) h
      | error other =>
          rw [hplace] at h
          cases h
          unfold place at hplace
          cases fits_or_lacks hd w id with
          | inl hfits =>
              obtain ⟨slot, line, hfit⟩ := hfits d.endOf? d.timeline
              rw [hfit] at hplace
              cases hplace
          | inr hlacks =>
              rw [fit_of_lacks hlacks] at hplace
              cases hplace
              exact ⟨id, rfl, hlacks⟩

/-- A walk gets stuck at what is no task. -/
theorem contains_of_stuck (fresh : List Int) (id : Int) (walk : Walk)
    (hwalk : ∀ x, walk.stuck = some x → w.contains x = false) :
    ∀ x, (w.visit fresh id walk).stuck = some x → w.contains x = false := by
  induction fresh, id, walk using Workflow.visit_induction w with
  | step fresh id walk ih =>
      have habove : ∀ x, ((w.parentsOf id).foldl (w.advance fresh) walk).stuck = some x →
          w.contains x = false := by
        refine List.foldlRecOn
          (motive := fun walk : Walk => ∀ x, walk.stuck = some x → w.contains x = false)
          _ _ hwalk fun walk hwalk parent _ => ?_
        unfold Workflow.advance
        split
        · exact hwalk
        · split
          · next hfresh => exact ih walk parent hfresh hwalk
          · split
            · exact hwalk
            · next hparent =>
                intro x hx
                rw [← Option.some.inj hx]
                exact Bool.eq_false_iff.mpr hparent
      rw [Workflow.visit_eq]
      dsimp only
      split
      · exact habove
      · exact habove

/-- **Faults**: settling a task fails for want of a task or of a cost, and for nothing else. -/
theorem lacks_of_settle (hd : d.Begun) (h : (d.settle w id).2 = some fault) :
    ∃ x, fault = .missing x ∧ w.Lacks d.costs x := by
  obtain ⟨new, horder, -, -⟩ := w.follows_ancestry d.order id
  unfold settle at h
  dsimp only at h
  rw [horder, List.drop_left] at h
  cases hplaced : (d.placeAll w new).2 with
  | some other =>
      rw [hplaced] at h
      rw [← Option.some.inj h]
      exact lacks_of_placeAll hd hplaced
  | none =>
      rw [hplaced, Option.none_or] at h
      obtain ⟨x, hstuck, rfl⟩ := Option.map_eq_some_iff.mp h
      have hx : w.contains x = false := by
        unfold Workflow.ancestry at hstuck
        split at hstuck
        · cases hstuck
        · split at hstuck
          · exact contains_of_stuck _ id ⟨d.order, none⟩ (fun y hy => by cases hy) x hstuck
          · next hid =>
              rw [← Option.some.inj hstuck]
              exact Bool.eq_false_iff.mpr hid
      refine ⟨x, rfl, .inl ?_⟩
      rw [← Option.not_isSome_iff_eq_none, Option.isSome_iff_exists]
      rw [← Workflow.contains_iff_find?, hx]
      exact Bool.false_ne_true

omit [Arithmetic τ] in
/-- Placements in turn change neither the costs nor the padding. -/
theorem Reaches.begun (h : Reaches w d d') (hd : d.Begun) : d'.Begun := by
  induction h with
  | refl => exact hd
  | place before next last ih => exact ih.place last

/-- Settle tasks in turn, as far as they can be settled, each in the workflow as it is then. -/
def settleAcross (d : Draft τ) (calls : List (Workflow × Int)) : Draft τ :=
  calls.foldl (fun d call => (d.settle call.1 call.2).1) d

end Draft

namespace Ledger

/-! ## ledgers -/

/-- All fields speak of the same tasks, each once, and for each of them there are two reservations,
which are in order unless one of them is NaN. -/
structure InStep (l : Ledger τ) : Prop where
  scheduled : l.scheduled = l.order.toFinset
  sendStart : l.sendStart.map (·.1) = l.order
  receiveEnd : l.receiveEnd.map (·.1) = l.order
  nodup : l.order.Nodup
  reserved : l.timeline.intervals.length = 2 * l.order.length
  sorted : l.timeline.IsNumeric → Sorted Timeline.before l.timeline.intervals

/-- One ledger holds all that another one holds, and holds it as it was. -/
structure Extends (l l' : Ledger τ) : Prop where
  padding : l'.padding = l.padding
  costs : l'.costs = l.costs
  order : l.order <+: l'.order
  sendStart : l.sendStart <+: l'.sendStart
  receiveEnd : l.receiveEnd <+: l'.receiveEnd
  scheduled : l.scheduled ⊆ l'.scheduled
  timeline : l.timeline.intervals.Sublist l'.timeline.intervals

/-- However a call ends, all fields are in step and nothing is taken back; without a fault the task
is scheduled, and a fault names a task that is not there or whose cost is not known. -/
structure Keeps (w : Workflow) (l : Ledger τ) (id : Int) (s : Ledger τ × Option Fault) : Prop where
  inStep : s.1.InStep
  grows : l.Extends s.1
  done : s.2 = none → id ∈ s.1.scheduled
  fault : ∀ fault, s.2 = some fault → ∃ x, fault = .missing x ∧ w.Lacks l.costs x

/-- Both legs of a task are reserved, padded, or nothing is. -/
def ReservesBoth (l : Ledger τ) (w : Workflow) (endOf? : Int → Option τ) (id : Int)
    (line : Timeline τ) : Prop :=
  (∃ cost slot line', l.costs.lookup id = some cost ∧
    l.reservePort w endOf? id line = (.ok slot, line') ∧
    line'.intervals.Perm ((slot.legs cost.transfer).map (·.padded l.padding) ++ line.intervals) ∧
    line.intervals.Sublist line'.intervals) ∨
  ∃ fault, l.reservePort w endOf? id line = (.error fault, line)

/-- What can be relied on between calls. -/
structure Consistent (l : Ledger τ) : Prop where
  inStep : l.InStep
  settles : ∀ w id, Keeps w l id (l.settle w id)
  reserves : ∀ w endOf? id line, l.ReservesBoth w endOf? id line

variable {w : Workflow} {first d d' : Draft τ} {id : Int}

theorem inStep_ofDraft (h : d.Sound) : (ofDraft d).InStep where
  scheduled := rfl
  sendStart := List.map_map
  receiveEnd := d.keys_ends
  nodup := h.nodup
  reserved := by
    have hlength := h.accounted.reserved.length_eq
    rw [List.length_map, Draft.length_legs] at hlength
    have horder : (ofDraft d).order.length = d.placed.length := List.length_map _
    rw [horder]
    exact hlength
  sorted := h.sorted

omit [Timescale τ] in
theorem extends_ofDraft (h : d.Extends d') : (ofDraft d).Extends (ofDraft d') where
  padding := h.padding
  costs := h.costs
  order := h.placed.map _
  sendStart := h.placed.map _
  receiveEnd := h.placed.map _
  scheduled _ hid := List.mem_toFinset.mpr ((h.placed.map _).subset (List.mem_toFinset.mp hid))
  timeline := h.reserved

variable [Arithmetic τ]

theorem keeps_ofDraft (hsound : d.Sound) (hd : d.Begun) (w : Workflow) (id : Int) :
    Keeps w (ofDraft d) id ((ofDraft d).settle w id) := by
  have hreaches := Draft.reaches_settle w d id
  rw [settle_ofDraft hd]
  refine ⟨inStep_ofDraft (hsound.reaches hreaches), extends_ofDraft hreaches.extends,
    fun hnone => ?_, fun fault => Draft.lacks_of_settle hd⟩
  have hsettled : Draft.settled w d id = .ok (d.settle w id).1 := by
    have hnone : (d.settle w id).2 = none := hnone
    unfold Draft.settled
    rw [← Prod.eta (d.settle w id), hnone]
  exact List.mem_toFinset.mpr (Draft.reaches_settled hsettled).2

theorem reservesBoth_ofDraft (hd : d.Begun) (w : Workflow) (endOf? : Int → Option τ) (id : Int)
    (line : Timeline τ) : (ofDraft d).ReservesBoth w endOf? id line := by
  cases Draft.fits_or_lacks hd w id with
  | inr hlacks => exact .inr ⟨_, reservePort_of_lacks hlacks endOf? line⟩
  | inl hfits =>
      obtain ⟨slot, line', hfit⟩ := hfits endOf? line
      obtain ⟨t, cost, sent, rfl, h⟩ := Draft.fits_of_fit hfit
      refine .inl ⟨cost, slot, line', h.known, reservePort_of_fit hfit, ?_, ?_⟩
      · have hreceive := Timeline.perm_reserve h.receive
        rw [h.receiveEnd] at hreceive
        exact (hreceive.trans ((Timeline.perm_reserve h.send).cons _)).trans (.swap _ _ _)
      · exact (Timeline.sublist_reserve h.send).trans (Timeline.sublist_reserve h.receive)

/-! ## calls in turn -/

/-- Settle tasks in turn, as far as they can be settled, each in the workflow as it is then. -/
def settleAcross (l : Ledger τ) (calls : List (Workflow × Int)) : Ledger τ :=
  calls.foldl (fun l call => (l.settle call.1 call.2).1) l

/-- A ledger records a draft that has grown since it was started. -/
structure Records (first : Draft τ) (l : Ledger τ) (d : Draft τ) : Prop where
  ledger : l = ofDraft d
  sound : d.Sound
  begun : d.Begun
  numbered : first.Tame → d.Tame ∧ d.Numbered

omit [Arithmetic τ] in
theorem records_of_start {platform : Platform τ} {padding : Quantity}
    (h : Draft.start w platform padding = .ok first) : Records first (ofDraft first) first where
  ledger := rfl
  sound := (Draft.starts_of_start h).sound
  begun := ⟨w, platform, padding, first, h, rfl, rfl⟩
  numbered htame := by
    refine ⟨htame, fun i hi => ?_, fun entry hentry => ?_⟩
    · rw [(Draft.starts_of_start h).timeline] at hi
      cases hi
    · rw [(Draft.starts_of_start h).placed] at hentry
      cases hentry

/-- Settling a task on both keeps it so. -/
theorem Records.settle {l : Ledger τ} (h : Records first l d) (w : Workflow) (id : Int) :
    Records first (l.settle w id).1 (d.settle w id).1 := by
  have hreaches := Draft.reaches_settle w d id
  refine ⟨?_, h.sound.reaches hreaches, hreaches.begun h.begun, fun htame => ?_⟩
  · rw [h.ledger, settle_ofDraft h.begun]
    rfl
  · obtain ⟨htame, hnumbered⟩ := h.numbered htame
    exact ⟨htame.of_extends hreaches.extends, hnumbered.reaches htame hreaches⟩

/-- So does settling tasks in turn. -/
theorem Records.settleAcross {l : Ledger τ} (h : Records first l d)
    (calls : List (Workflow × Int)) :
    Records first (l.settleAcross calls) (d.settleAcross calls) := by
  unfold Ledger.settleAcross Draft.settleAcross
  induction calls generalizing l d with
  | nil => exact h
  | cons call rest ih => exact ih (h.settle call.1 call.2)

/-- **Consistency**: whatever tasks are settled, in whatever workflows and however these calls end,
the ledger is that of the draft, and so is what the next call comes to; its fields are in step, and
the next call keeps them so and takes nothing back.  No reservation is NaN if the costs and the
padding are tame. -/
theorem consistent_of_start {platform : Platform τ} {padding : Quantity}
    (hstart : Draft.start w platform padding = .ok first) (calls : List (Workflow × Int)) :
    (ofDraft first).settleAcross calls = ofDraft (first.settleAcross calls) ∧
      (∀ w id, ((ofDraft first).settleAcross calls).settle w id =
        ofRun ((first.settleAcross calls).settle w id)) ∧
      ((ofDraft first).settleAcross calls).Consistent ∧
      (first.Tame → ((ofDraft first).settleAcross calls).timeline.IsNumeric) := by
  have hrecords := (records_of_start hstart).settleAcross calls
  refine ⟨hrecords.ledger, ?_, ?_, fun htame => ?_⟩
  · rw [hrecords.ledger]
    exact settle_ofDraft hrecords.begun
  · rw [hrecords.ledger]
    exact ⟨inStep_ofDraft hrecords.sound, keeps_ofDraft hrecords.sound hrecords.begun,
      reservesBoth_ofDraft hrecords.begun⟩
  · rw [hrecords.ledger]
    exact (hrecords.numbered htame).2.timeline

/-- A task in front of another one, and a third one. -/
def stem : Workflow where
  tasks := [
    { Task.make 1 2 1 none none with
      children := [2], files := [{ name := "part", size := 7, kind := .output }] },
    { Task.make 2 5 1 none none with parents := [1] },
    { Task.make 4 1 1 none none with
      files := [{ name := "data", size := 6, kind := .output }] }]
  nodup_ids := by decide

/-- The draft that planning it on a host of unit speed starts with. -/
def stemDraft : Draft Float where
  padding := 1
  costs := [(1, ⟨2, 7⟩), (2, ⟨5, 0⟩), (4, ⟨1, 6⟩)]
  timeline := .empty
  placed := []

/-- The second task is told to wait for a task that is not there. -/
def orphaned : Workflow := stem.pushParent 2 9

/-- Then that task is added. -/
def grafted : Workflow where
  tasks := orphaned.tasks ++ [Task.make 9 1 1 none none]
  nodup_ids := by decide

/-- The second task is never scheduled, at first for want of a parent and then of the cost of that
parent; the first one is, on the way, and stays scheduled. -/
theorem consistent_grafted :
    (do Draft.start stem (← Platform.ofHosts Float [Plan.loopHost]) 1) = .ok stemDraft ∧
    ∃ l, (ofDraft stemDraft).settleAcross [(orphaned, 2), (grafted, 2), (grafted, 4)] = l ∧
      l.Consistent ∧ l.timeline.IsNumeric ∧ l.order = [1, 4] ∧
      (l.settle orphaned 2).2 = some (.missing 9) ∧ (l.settle grafted 2).2 = some (.missing 9) := by
  have hstart : (do Draft.start stem (← Platform.ofHosts Float [Plan.loopHost]) 1) =
      .ok stemDraft := by decide +kernel
  obtain ⟨platform, -, hstarted⟩ := bind_eq_ok_iff.mp hstart
  have htame : stemDraft.Tame :=
    Draft.tame_of_isFinite (by decide +kernel) (by decide +kernel)
  obtain ⟨-, -, hconsistent, hnumeric⟩ :=
    consistent_of_start hstarted [(orphaned, 2), (grafted, 2), (grafted, 4)]
  exact ⟨hstart, _, rfl, hconsistent, hnumeric htame, by decide +kernel, by decide +kernel,
    by decide +kernel⟩

/-- A task that sends without end, one that takes no time but minus infinity, and two short ones. -/
def endless : Workflow where
  tasks := [
    { Task.make 1 0 1 none none with
      parents := [1], children := [1]
      files := [{ name := "stream", size := .double (Binary64.infinity false), kind := .output
                  size_nonneg := by decide +kernel }] },
    { Task.make 2 (.double (Binary64.infinity true)) 1 none none with
      files := [{ name := "part", size := 7, kind := .output }] },
    { Task.make 3 0 1 none none with
      files := [{ name := "data", size := 7, kind := .output }] },
    Task.make 4 0 1 none none]
  nodup_ids := by decide

/-- The draft that planning it on a host of unit speed starts with. -/
def endlessDraft : Draft Float where
  padding := 0
  costs := [(1, ⟨0, Binary64.infinity false⟩), (2, ⟨Binary64.infinity true, 7⟩), (3, ⟨0, 7⟩),
    (4, ⟨0, 0⟩)]
  timeline := .empty
  placed := []

/-- **Infinite costs** of both signs put reservations out of order: one of them becomes NaN, and
behind it the search for a place goes astray. -/
theorem not_sorted_endless :
    (do Draft.start endless (← Platform.ofHosts Float [Plan.loopHost]) 0) = .ok endlessDraft ∧
      (∀ entry ∈ endlessDraft.costs, IsNumber entry.2.comp ∧ IsNumber entry.2.transfer) ∧
      ¬Sorted Timeline.before ((ofDraft endlessDraft).settleAcross
        [(endless, 1), (endless, 2), (endless, 3), (endless, 4)]).timeline.intervals := by
  decide +kernel

end Ledger

end SharedLink
