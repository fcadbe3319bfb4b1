import Mathlib.Data.Finset.Insert
import SharedLink.Proofs.Arrangement
import SharedLink.Proofs.Replay

/-!
# SharedLink.Proofs.Ledgers

What is placed, in separate fields that are updated in place.

A draft keeps all about a placed task in one entry, and reservations that were made before a
fault are forgotten with it.  A ledger keeps the tasks that are placed, their order, when they
are sent and when they are received each in a field of its own, and the fields are
updated one after the other while the ancestors of a task are gone through; a fault leaves
them as they are at that moment.  From a draft on, both come to the same: no fault strikes
between two updates.

* `reservePort_of_fit`, `reservePort_of_lacks` — either both legs are reserved, or none;
* `commit_ofDraft` — one task is entered in all fields, or in none;
* `tracks_visit` — committing on the way commits what a walk lists, up to the first fault;
* `settle_ofDraft` — settling a task on a ledger is settling it on the draft.
-/

namespace SharedLink

open Timescale

/-- Costs, reservations, and what is known of the placed tasks, field by field. -/
structure Ledger (τ : Type) where
  padding : τ
  costs : List (Int × Cost τ)
  timeline : Timeline τ
  sendStart : List (Int × τ)
  receiveEnd : List (Int × τ)
  scheduled : Finset Int
  order : List Int
deriving DecidableEq

/-! ## what cannot be placed -/

/-- A task that is not there, or whose cost is not known. -/
def Workflow.Lacks {τ : Type} (w : Workflow) (costs : List (Int × Cost τ)) (id : Int) : Prop :=
  w.find? id = none ∨ costs.lookup id = none

namespace Draft

variable {τ : Type} [Timescale τ] {w : Workflow} {d : Draft τ} {id : Int}

/-- What is lacking does not fit. -/
theorem fit_of_lacks (h : w.Lacks d.costs id) (endOf? : Int → Option τ) (line : Timeline τ) :
    d.fit w endOf? id line = .error (.missing id) := by
  unfold fit costOf Workflow.get
  cases hcost : d.costs.lookup id with
  | none => rfl
  | some cost =>
      rw [h.resolve_right (by rw [hcost]; exact Option.some_ne_none cost)]
      rfl

/-- Any other task fits on every timeline. -/
theorem fits_or_lacks [Arithmetic τ] (hd : d.Begun) (w : Workflow) (id : Int) :
    (∀ (endOf? : Int → Option τ) line, ∃ slot line', d.fit w endOf? id line = .ok (slot, line')) ∨
      w.Lacks d.costs id := by
  cases htask : w.find? id with
  | none => exact .inr (.inl htask)
  | some t =>
      cases hcost : d.costs.lookup id with
      | none => exact .inr (.inr hcost)
      | some cost =>
          have hfittable := hd.fittable (Workflow.contains_iff_find?.mpr ⟨t, htask⟩)
            (costOf_eq_ok_iff.mpr hcost)
          exact .inl hfittable.exists_fit

/-- A placement changes neither the costs nor the padding. -/
theorem Begun.place (hd : d.Begun) {d' : Draft τ} (h : d.place w id = .ok d') : d'.Begun := by
  obtain ⟨former, platform, padding, first, hstart, hcosts, hpadding⟩ := hd
  obtain ⟨t, cost, slot, sent, -, hplaces⟩ := places_of_place h
  exact ⟨former, platform, padding, first, hstart, hplaces.costs.trans hcosts,
    hplaces.padding.trans hpadding⟩

end Draft

namespace Ledger

variable {τ : Type}

/-- The entries of a draft, field by field. -/
def ofDraft (d : Draft τ) : Ledger τ where
  padding := d.padding
  costs := d.costs
  timeline := d.timeline
  sendStart := d.placed.map fun entry => (entry.1, entry.2.sendStart)
  receiveEnd := d.ends
  scheduled := d.order.toFinset
  order := d.order

variable [Timescale τ]

/-- Reserve both legs of a task.  What was reserved before a fault stays reserved. -/
def reservePort (l : Ledger τ) (w : Workflow) (endOf? : Int → Option τ) (id : Int)
    (line : Timeline τ) : Except Fault (Slot τ) × Timeline τ :=
  match l.costs.lookup id, w.find? id with
  | none, _ => (.error (.missing id), line)
  | some _, none => (.error (.missing id), line)
  | some cost, some task =>
      let sendStart := line.earliestGap (Draft.readyAt endOf? task) cost.transfer
      let finish := sendStart + cost.transfer + cost.comp
      match line.reserve (sendStart - l.padding) (sendStart + cost.transfer + l.padding) with
      | .error fault => (.error fault, line)
      | .ok sent =>
          let receiveStart := sent.earliestGap finish cost.transfer
          let receiveEnd := receiveStart + cost.transfer
          match sent.reserve (receiveStart - l.padding) (receiveEnd + l.padding) with
          | .error fault => (.error fault, sent)
          | .ok last => (.ok ⟨sendStart, receiveStart, receiveEnd⟩, last)

/-- Reserve both legs of a task and enter it in one field after the other. -/
def commit (w : Workflow) (l : Ledger τ) (id : Int) : Ledger τ × Option Fault :=
  match l.reservePort w (fun parent => l.receiveEnd.lookup parent) id l.timeline with
  | (.error fault, line) => ({ l with timeline := line }, some fault)
  | (.ok slot, line) =>
      ({ l with
          timeline := line
          sendStart := Draft.note id slot.sendStart l.sendStart
          receiveEnd := Draft.note id slot.receiveEnd l.receiveEnd
          scheduled := insert id l.scheduled
          order := l.order ++ [id] }, none)

/-- Commit a task unless there was a fault. -/
def enter (w : Workflow) (s : Ledger τ × Option Fault) (id : Int) : Ledger τ × Option Fault :=
  if s.2.isSome then s else s.1.commit w id

/-- Go through the parents of a task, and then commit it, unless there is a fault.  The tasks of
`fresh` are those that are not under way. -/
def visit (w : Workflow) (fresh : List Int) (id : Int) (s : Ledger τ × Option Fault) :
    Ledger τ × Option Fault :=
  let above := (w.parentsOf id).foldl
    (fun s parent =>
      if s.2.isSome || decide (parent ∈ s.1.scheduled) then s
      else if _ : parent ∈ fresh then visit w (fresh.erase parent) parent s
      else if w.contains parent then s
      else (s.1, some (.missing parent)))
    s
  enter w above id
termination_by fresh.length
decreasing_by
  rename_i h
  rw [List.length_erase_of_mem h]
  exact Nat.sub_lt (List.length_pos_of_mem h) Nat.one_pos

/-- Commit a task with its ancestors in front of it, as far as they are not scheduled yet. -/
def settle (w : Workflow) (l : Ledger τ) (id : Int) : Ledger τ × Option Fault :=
  if id ∈ l.scheduled then (l, none)
  else if w.contains id then visit w (w.ids.erase id) id (l, none)
  else (l, some (.missing id))

/-! ## one task -/

variable {w : Workflow} {d : Draft τ} {l : Ledger τ} {s : Ledger τ × Option Fault}
  {walk : Walk} {fresh : List Int} {id : Int}

/-- Where a task fits, both of its legs are reserved. -/
theorem reservePort_of_fit {endOf? : Int → Option τ} {line line' : Timeline τ} {slot : Slot τ}
    (h : d.fit w endOf? id line = .ok (slot, line')) :
    (ofDraft d).reservePort w endOf? id line = (.ok slot, line') := by
  obtain ⟨t, cost, sent, rfl, hfits⟩ := Draft.fits_of_fit h
  obtain ⟨sendStart, receiveStart, receiveEnd⟩ := slot
  obtain ⟨hfound, hknown, hsendStart, hsend, hreceiveStart, hreceiveEnd, hreceive⟩ := hfits
  dsimp only at hsendStart hsend hreceiveStart hreceiveEnd hreceive
  have hcosts : (ofDraft d).costs.lookup t.id = some cost := hknown
  have hpadding : (ofDraft d).padding = d.padding := rfl
  unfold reservePort
  simp only [hcosts, hfound, hpadding, ← hsendStart, hsend, ← hreceiveStart, ← hreceiveEnd,
    hreceive]

/-- Nothing is reserved for what is lacking. -/
theorem reservePort_of_lacks (h : w.Lacks l.costs id)
    (endOf? : Int → Option τ) (line : Timeline τ) :
    l.reservePort w endOf? id line = (.error (.missing id), line) := by
  unfold reservePort
  cases hcost : l.costs.lookup id with
  | none => rfl
  | some cost =>
      rw [h.resolve_right (by rw [hcost]; exact Option.some_ne_none cost)]

omit [Timescale τ] in
/-- Entering a task that is new in all fields puts it at the end of each. -/
theorem ofDraft_append (hnew : id ∉ d.order) (slot : Slot τ) (line : Timeline τ) :
    ofDraft { d with timeline := line, placed := d.placed ++ [(id, slot)] } =
      { ofDraft d with
        timeline := line
        sendStart := Draft.note id slot.sendStart (ofDraft d).sendStart
        receiveEnd := Draft.note id slot.receiveEnd (ofDraft d).receiveEnd
        scheduled := insert id (ofDraft d).scheduled
        order := (ofDraft d).order ++ [id] } := by
  have hsend : id ∉ (ofDraft d).sendStart.map (·.1) := by
    unfold ofDraft
    rwa [List.map_map]
  have hreceive : id ∉ (ofDraft d).receiveEnd.map (·.1) := by
    rwa [← Draft.keys_ends] at hnew
  rw [Draft.note_of_not_mem hsend, Draft.note_of_not_mem hreceive]
  unfold ofDraft Draft.order Draft.ends
  simp only [List.map_append, List.map_cons, List.map_nil, List.toFinset_append,
    List.toFinset_cons, List.toFinset_nil]
  rw [insert_empty_eq, Finset.union_comm, Finset.singleton_union]

/-- What a draft has come to, field by field. -/
def ofRun (s : Draft τ × Option Fault) : Ledger τ × Option Fault := (ofDraft s.1, s.2)

/-- **One task** that is not placed is entered in all fields when it is placed, and in none when it
is not. -/
theorem commit_ofDraft [Arithmetic τ] (hd : d.Begun) (hnew : id ∉ d.order) :
    (ofDraft d).commit w id = ofRun (d.placeAll w [id]) := by
  have hends : (fun parent => (ofDraft d).receiveEnd.lookup parent) = d.endOf? :=
    funext d.lookup_ends
  have htimeline : (ofDraft d).timeline = d.timeline := rfl
  unfold commit Draft.placeAll Draft.place
  rw [hends, htimeline]
  cases Draft.fits_or_lacks hd w id with
  | inl hfits =>
      obtain ⟨slot, line, hfit⟩ := hfits d.endOf? d.timeline
      rw [reservePort_of_fit hfit, hfit]
      exact congrArg (·, none) (ofDraft_append hnew slot line).symm
  | inr hlacks =>
      rw [reservePort_of_lacks hlacks, Draft.fit_of_lacks hlacks]
      rfl

/-! ## tasks in turn -/

/-- Nothing is committed after a fault. -/
theorem foldl_enter_of_fault (h : s.2.isSome = true) (new : List Int) :
    new.foldl (enter w) s = s := by
  induction new with
  | nil => rfl
  | cons id rest ih =>
      rw [List.foldl_cons, enter, if_pos h, ih]

/-- **Tasks in turn** that are not placed are committed as they are placed, up to the first that
cannot be. -/
theorem foldl_enter_ofDraft [Arithmetic τ] {new : List Int} (hd : d.Begun) (hnodup : new.Nodup)
    (hnew : ∀ id ∈ new, id ∉ d.order) :
    new.foldl (enter w) (ofDraft d, none) = ofRun (d.placeAll w new) := by
  induction new generalizing d with
  | nil => rfl
  | cons id rest ih =>
      obtain ⟨hid, hrest⟩ := List.forall_mem_cons.mp hnew
      obtain ⟨hout, hnodup⟩ := List.nodup_cons.mp hnodup
      have hcommit : enter w (ofDraft d, none) id = ofRun (d.placeAll w [id]) :=
        commit_ofDraft hd hid
      rw [List.foldl_cons, hcommit, Draft.placeAll, Draft.placeAll]
      cases hplace : d.place w id with
      | error fault => exact foldl_enter_of_fault rfl rest
      | ok d' =>
          change rest.foldl (enter w) (ofDraft d', none) = _
          refine ih (hd.place hplace) hnodup fun other hother hmem => ?_
          rw [Draft.order_place hplace] at hmem
          cases List.mem_append.mp hmem with
          | inl hplaced => exact hrest other hother hplaced
          | inr heq => exact hout (List.mem_singleton.mp heq ▸ hother)

/-- A task that is committed is scheduled. -/
theorem scheduled_commit (h : (l.commit w id).2 = none) :
    (l.commit w id).1.scheduled = insert id l.scheduled := by
  unfold commit at h ⊢
  split at h
  · cases h
  · rfl

/-- Without a fault all tasks in turn are scheduled, and no others come to be. -/
theorem mem_scheduled_foldl {new : List Int} (h : (new.foldl (enter w) s).2 = none) (x : Int) :
    x ∈ (new.foldl (enter w) s).1.scheduled ↔ x ∈ s.1.scheduled ∨ x ∈ new := by
  induction new generalizing s with
  | nil => simp
  | cons id rest ih =>
      rw [List.foldl_cons] at h ⊢
      have hnone : (enter w s id).2 = none := by
        by_contra hsome
        rw [foldl_enter_of_fault (Option.isSome_iff_ne_none.mpr hsome)] at h
        exact hsome h
      have hfault : ¬s.2.isSome = true := by
        intro hsome
        rw [enter, if_pos hsome] at hnone
        rw [hnone] at hsome
        cases hsome
      rw [enter, if_neg hfault] at h hnone ⊢
      rw [ih h, scheduled_commit hnone, Finset.mem_insert, List.mem_cons]
      tauto

/-! ## the walk -/

/-- What is done about one parent of a task. -/
def advance (w : Workflow) (fresh : List Int) (s : Ledger τ × Option Fault) (parent : Int) :
    Ledger τ × Option Fault :=
  if s.2.isSome || decide (parent ∈ s.1.scheduled) then s
  else if parent ∈ fresh then visit w (fresh.erase parent) parent s
  else if w.contains parent then s
  else (s.1, some (.missing parent))

theorem visit_eq (w : Workflow) (fresh : List Int) (id : Int) (s : Ledger τ × Option Fault) :
    visit w fresh id s = enter w ((w.parentsOf id).foldl (advance w fresh) s) id := by
  rw [visit]
  rfl

/-- After a fault parents are passed over. -/
theorem advance_of_fault (h : s.2.isSome = true) (parent : Int) : advance w fresh s parent = s := by
  unfold advance
  rw [h]
  rfl

/-- So are all tasks. -/
theorem visit_of_fault (h : s.2.isSome = true) : visit w fresh id s = s := by
  have hparents (parents : List Int) : parents.foldl (advance w fresh) s = s := by
    induction parents with
    | nil => rfl
    | cons parent rest ih => rw [List.foldl_cons, advance_of_fault h, ih]
  rw [visit_eq, hparents, enter, if_pos h]

/-- What has been committed from a ledger on is what a walk has listed, up to the first fault; if
there was none, the walk may be stuck. -/
def Tracks (w : Workflow) (l : Ledger τ) (walk : Walk) (s : Ledger τ × Option Fault) : Prop :=
  ∃ new, walk.order = l.order ++ new ∧
    s.1 = (new.foldl (enter w) (l, none)).1 ∧
    s.2 = (new.foldl (enter w) (l, none)).2.or (walk.stuck.map .missing)

/-- Where a walk is stuck there was a fault. -/
theorem Tracks.fault_of_stuck (h : Tracks w l walk s) (hstuck : walk.stuck.isSome = true) :
    s.2.isSome = true := by
  obtain ⟨new, -, -, hfault⟩ := h
  rw [hfault, Option.isSome_or, Option.isSome_map, hstuck, Bool.or_true]

/-- Without a fault no walk is stuck, and what it has listed is scheduled. -/
theorem Tracks.of_no_fault (h : Tracks w l walk s) (hl : ∀ x, x ∈ l.scheduled ↔ x ∈ l.order)
    (hfault : s.2 = none) :
    walk.stuck = none ∧ ∀ x, x ∈ s.1.scheduled ↔ x ∈ walk.order := by
  obtain ⟨new, horder, hledger, hnone⟩ := h
  rw [hfault] at hnone
  obtain ⟨hnew, hstuck⟩ := Option.or_eq_none_iff.mp hnone.symm
  refine ⟨Option.map_eq_none_iff.mp hstuck, fun x => ?_⟩
  rw [hledger, mem_scheduled_foldl hnew, hl, horder, List.mem_append]

/-- Listing and committing the same task keeps pace. -/
theorem Tracks.enter (h : Tracks w l walk s) (hstuck : walk.stuck = none) (id : Int) :
    Tracks w l { walk with order := walk.order ++ [id] } (enter w s id) := by
  obtain ⟨new, horder, hledger, hfault⟩ := h
  rw [hstuck, Option.map_none, Option.or_none] at hfault
  refine ⟨new ++ [id], ?_, ?_, ?_⟩
  · dsimp only
    rw [horder, List.append_assoc]
  · rw [List.foldl_append, ← Prod.ext hledger hfault]
    rfl
  · rw [hstuck, Option.map_none, Option.or_none, List.foldl_append, ← Prod.ext hledger hfault]
    rfl

/-- Getting stuck is the fault unless there was one before. -/
theorem Tracks.stick (h : Tracks w l walk s) (hstuck : walk.stuck = none) (parent : Int) :
    Tracks w l { walk with stuck := some parent } (s.1, s.2.or (some (.missing parent))) := by
  obtain ⟨new, horder, hledger, hfault⟩ := h
  rw [hstuck, Option.map_none, Option.or_none] at hfault
  exact ⟨new, horder, hledger, by rw [hfault]; rfl⟩

/-- What is done about one parent keeps pace as well, if a visit does; after a fault only the walk
goes on. -/
theorem Tracks.advance (h : Tracks w l walk s) (hl : ∀ x, x ∈ l.scheduled ↔ x ∈ l.order)
    {parent : Int} (hvisit : parent ∈ fresh →
      Tracks w l (w.visit (fresh.erase parent) parent walk)
        (visit w (fresh.erase parent) parent s)) :
    Tracks w l (w.advance fresh walk parent) (advance w fresh s parent) := by
  by_cases hfault : s.2.isSome = true
  · rw [advance_of_fault hfault]
    unfold Workflow.advance
    split
    · exact h
    next hgo =>
      have hstuck : walk.stuck = none := by
        rw [Bool.or_eq_true, not_or] at hgo
        exact Option.not_isSome_iff_eq_none.mp hgo.1
      split
      · next hfresh =>
          have hvisit := hvisit hfresh
          rwa [visit_of_fault hfault] at hvisit
      · split
        · exact h
        · have hstick := h.stick hstuck parent
          rwa [Option.or_of_isSome hfault] at hstick
  · have hnone : s.2 = none := Option.not_isSome_iff_eq_none.mp hfault
    obtain ⟨hstuck, hscheduled⟩ := h.of_no_fault hl hnone
    have hskip : (s.2.isSome || decide (parent ∈ s.1.scheduled)) =
        (walk.stuck.isSome || walk.order.contains parent) := by
      simp [hnone, hstuck, hscheduled]
    unfold Ledger.advance Workflow.advance
    rw [hskip]
    split
    · exact h
    · split
      · next hfresh => exact hvisit hfresh
      · split
        · exact h
        · have hstick := h.stick hstuck parent
          rwa [hnone] at hstick

/-- **Committing on the way** is listing first: a visit that commits keeps pace with one that
lists, parent by parent, each of them from where the last one ended. -/
theorem tracks_visit (hl : ∀ x, x ∈ l.scheduled ↔ x ∈ l.order) (fresh : List Int) (id : Int)
    (walk : Walk) (h : Tracks w l walk s) :
    Tracks w l (w.visit fresh id walk) (visit w fresh id s) := by
  induction fresh, id, walk using Workflow.visit_induction w generalizing s with
  | step fresh id walk ih =>
      have habove (parents : List Int) {walk : Walk} {s : Ledger τ × Option Fault}
          (h : Tracks w l walk s) :
          Tracks w l (parents.foldl (w.advance fresh) walk)
            (parents.foldl (Ledger.advance w fresh) s) := by
        induction parents generalizing walk s with
        | nil => exact h
        | cons parent rest ihrest =>
            exact ihrest (h.advance hl fun hfresh => ih walk parent hfresh h)
      have habove := habove (w.parentsOf id) h
      rw [Workflow.visit_eq, visit_eq]
      dsimp only
      split
      · next hstuck =>
          rw [Ledger.enter, if_pos (habove.fault_of_stuck hstuck)]
          exact habove
      · next hstuck => exact habove.enter (Option.not_isSome_iff_eq_none.mp hstuck) id

/-- What a ledger settles is what the walk of its order lists. -/
theorem tracks_settle (hl : ∀ x, x ∈ l.scheduled ↔ x ∈ l.order) (id : Int) :
    Tracks w l (w.ancestry l.order id) (l.settle w id) := by
  have hstart : Tracks w l ⟨l.order, none⟩ (l, none) := ⟨[], (List.append_nil _).symm, rfl, rfl⟩
  unfold settle Workflow.ancestry
  simp only [hl, List.contains_iff_mem]
  split
  · exact hstart
  · split
    · exact tracks_visit hl _ id ⟨l.order, none⟩ hstart
    · exact hstart.stick rfl id

/-- **Settling** a task on a ledger, field by field and while its ancestors are gone through, comes
to what settling it on the draft comes to, with the same fault if there is one, since the walk
adds only what is new and nothing is noted over what was there. -/
theorem settle_ofDraft [Arithmetic τ] (hd : d.Begun) (w : Workflow) (id : Int) :
    (ofDraft d).settle w id = ofRun (d.settle w id) := by
  have hl (x : Int) : x ∈ (ofDraft d).scheduled ↔ x ∈ (ofDraft d).order := List.mem_toFinset
  obtain ⟨new, horder, hledger, hfault⟩ := tracks_settle (w := w) hl id
  obtain ⟨new', horder', hfollows, -⟩ := w.follows_ancestry d.order id
  have horder : (w.ancestry d.order id).order = d.order ++ new := horder
  obtain rfl : new' = new := List.append_cancel_left (horder'.symm.trans horder)
  obtain ⟨hnodup, hnew⟩ := Workflow.new_of_follows hfollows
  rw [foldl_enter_ofDraft hd hnodup hnew] at hledger hfault
  refine Prod.ext ?_ ?_
  · rw [hledger]
    unfold Draft.settle
    dsimp only
    rw [horder, List.drop_left]
    rfl
  · rw [hfault]
    unfold Draft.settle
    dsimp only
    rw [horder, List.drop_left]
    rfl

end Ledger

end SharedLink
