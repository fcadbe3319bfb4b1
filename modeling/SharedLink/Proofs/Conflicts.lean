import SharedLink.Plan.Apply
import SharedLink.Proofs.Entries
import SharedLink.Proofs.Routes

/-!
# SharedLink.Proofs.Conflicts

Writing a plan stops at the first conflict.

A plan may be written into a workflow other than the one that it was made for: one that
has grown since, one in which ranks were set by hand, or any other.  Each entry is
checked just before it is written, and so what is left behind depends on where the first
conflict lies.  As no task has two entries, writing an entry makes no conflict for
those behind it: whether an entry conflicts can be told from the workflow as it was.

* `Workflow.Conflict` — what keeps the task of an id from being planned, and the fault for it;
* `writeFrom_of_free`, `writeFrom_of_conflict` — what is done with one entry;
* `find?_writeFrom`, `tasks_writeFrom` — entries without conflict are written, and nothing else
  changes;
* `prefix_of_build` — what a plan does to any workflow.
-/

namespace SharedLink

/-! ## conflicts -/

/-- A task with a slot and a rank that were planned for it. -/
def Task.planned (t : Task) (slot : Slot Float) (rank : Nat) : Task :=
  { t with slot := some slot, rank := .int rank }

/-- A task is found to have no rank just if its rank is infinite or NaN. -/
theorem Task.isRanked_eq_false_iff {t : Task} :
    t.isRanked = .ok false ↔ t.rank.isFinite? = some false := by
  unfold isRanked
  cases t.rank.isFinite? with
  | none => simp
  | some ranked => simp

/-- A rank that is an integer is not infinite. -/
theorem Quantity.isFinite?_int (n : Int) : (Quantity.int n).isFinite? ≠ some false := by
  unfold isFinite?
  dsimp only
  split <;> simp

namespace Workflow

variable {w : Workflow} {id : Int}

/-- The task of an id cannot be planned: it is not there, it has a finite rank, or its rank is
too wide to tell. -/
inductive Conflict (w : Workflow) (id : Int) : Fault → Prop
  | missing (hfind : w.find? id = none) : Conflict w id (.missing id)
  | ranked {t : Task} (hfind : w.find? id = some t) (hrank : t.rank.isFinite? = some true) :
      Conflict w id (.alreadyPlanned id)
  | wide {t : Task} (hfind : w.find? id = some t) (hrank : t.rank.isFinite? = none) :
      Conflict w id .rankTooWide

/-- The task of an id can be planned: it is there, and its rank is infinite or NaN. -/
def Free (w : Workflow) (id : Int) : Prop :=
  ∃ t, w.find? id = some t ∧ t.isRanked = .ok false

instance decidableFree (w : Workflow) (id : Int) : Decidable (w.Free id) :=
  inferInstanceAs (Decidable (∃ t ∈ w.find? id, t.isRanked = .ok false))

/-- A task that can be planned has no conflict. -/
theorem Free.not_conflict (h : w.Free id) (fault : Fault) : ¬w.Conflict id fault := by
  obtain ⟨t, ht, hrank⟩ := h
  rw [Task.isRanked_eq_false_iff] at hrank
  intro hconflict
  cases hconflict with
  | missing hfind => simp [ht] at hfind
  | ranked hfind hranked =>
      obtain rfl := Option.some.inj (ht.symm.trans hfind)
      simp [hrank] at hranked
  | wide hfind hwide =>
      obtain rfl := Option.some.inj (ht.symm.trans hfind)
      simp [hrank] at hwide

/-- Every other task has one. -/
theorem free_or_conflict (w : Workflow) (id : Int) :
    w.Free id ∨ ∃ fault, w.Conflict id fault := by
  cases hfind : w.find? id with
  | none => exact .inr ⟨_, .missing hfind⟩
  | some t =>
      cases hrank : t.rank.isFinite? with
      | none => exact .inr ⟨_, .wide hfind hrank⟩
      | some ranked =>
          cases ranked with
          | true => exact .inr ⟨_, .ranked hfind hrank⟩
          | false => exact .inl ⟨t, hfind, Task.isRanked_eq_false_iff.mpr hrank⟩

/-- Whether the task of an id can be planned depends on that task only. -/
theorem Free.congr {w' : Workflow} (h : w.Free id) (hfind : w'.find? id = w.find? id) :
    w'.Free id := by
  obtain ⟨t, ht, hrank⟩ := h
  exact ⟨t, hfind.trans ht, hrank⟩

theorem Conflict.congr {w' : Workflow} {fault : Fault} (h : w.Conflict id fault)
    (hfind : w'.find? id = w.find? id) : w'.Conflict id fault := by
  cases h with
  | missing hnone => exact .missing (hfind.trans hnone)
  | ranked hsome hrank => exact .ranked (hfind.trans hsome) hrank
  | wide hsome hrank => exact .wide (hfind.trans hsome) hrank

/-- The tasks of a workflow are known from its ids and from what is found under them. -/
theorem tasks_eq_map {w' : Workflow} {f : Task → Task} (hids : w'.ids = w.ids)
    (h : ∀ t ∈ w.tasks, w'.find? t.id = some (f t)) : w'.tasks = w.tasks.map f := by
  have hlength : w'.tasks.length = w.tasks.length := by
    simpa [Workflow.ids] using congrArg List.length hids
  refine List.ext_getElem (by rw [hlength, List.length_map]) fun i hi hi' => ?_
  have hi' : i < w.tasks.length := hlength ▸ hi
  have hid : w'.tasks[i].id = w.tasks[i].id := by
    have hids : w'.ids[i]? = w.ids[i]? := by rw [hids]
    simpa [Workflow.ids, List.getElem?_eq_getElem, hi, hi'] using hids
  have hfound := h w.tasks[i] (List.getElem_mem hi')
  rw [← hid, find?_of_mem (List.getElem_mem hi)] at hfound
  rw [List.getElem_map]
  exact Option.some.inj hfound

end Workflow

namespace Plan

variable {p : Plan Float} {w w' : Workflow}

/-- A task as it is once the entries of all ranks below some rank have been written. -/
def annotate (p : Plan Float) (below : Nat) (t : Task) : Task :=
  match p.find? t.id with
  | some (slot, rank) => if rank < below then t.planned slot rank else t
  | none => t

/-- It keeps its id. -/
theorem id_annotate (p : Plan Float) (below : Nat) (t : Task) : (p.annotate below t).id = t.id := by
  unfold annotate
  split
  · split <;> rfl
  · rfl

/-! ## writing up to a conflict -/

/-- An entry whose task can be planned is written. -/
theorem writeFrom_of_free {rank : Nat} {id : Int} {slot : Slot Float}
    {rest : List (Int × Slot Float)} (h : w.Free id) :
    writeFrom rank ((id, slot) :: rest) w =
      writeFrom (rank + 1) rest (w.modify id (·.planned slot rank)) := by
  obtain ⟨t, hfind, hrank⟩ := h
  rw [writeFrom]
  simp only [hfind, hrank]
  rfl

/-- An entry that conflicts ends the writing, and changes nothing. -/
theorem writeFrom_of_conflict {rank : Nat} {id : Int} {slot : Slot Float} {fault : Fault}
    {rest : List (Int × Slot Float)} (h : w.Conflict id fault) :
    writeFrom rank ((id, slot) :: rest) w = (w, some fault) := by
  unfold writeFrom
  cases h with
  | missing hfind => rw [hfind]
  | ranked hfind hrank => simp only [hfind, Task.isRanked, hrank]
  | wide hfind hrank => simp only [hfind, Task.isRanked, hrank]

/-- Entries can be written in two parts. -/
theorem writeFrom_append {rank : Nat} {front rest : List (Int × Slot Float)}
    (h : writeFrom rank front w = (w', none)) :
    writeFrom rank (front ++ rest) w = writeFrom (rank + front.length) rest w' := by
  induction front generalizing rank w with
  | nil =>
      obtain ⟨rfl, -⟩ := Prod.mk.inj h
      rfl
  | cons entry front ih =>
      obtain ⟨id, slot⟩ := entry
      cases w.free_or_conflict id with
      | inl hfree =>
          rw [writeFrom_of_free hfree] at h
          rw [List.cons_append, writeFrom_of_free hfree, ih h, List.length_cons, Nat.add_assoc,
            Nat.add_comm 1]
      | inr hconflict =>
          obtain ⟨fault, hconflict⟩ := hconflict
          rw [writeFrom_of_conflict hconflict] at h
          cases h

/-- Entries of different tasks that can be planned are all written, in turn. -/
theorem find?_writeFrom {entries : List (Int × Slot Float)} (hnodup : (entries.map (·.1)).Nodup)
    (hfree : ∀ entry ∈ entries, w.Free entry.1) (rank : Nat) :
    ∃ w', writeFrom rank entries w = (w', none) ∧
      (∀ id, id ∉ entries.map (·.1) → w'.find? id = w.find? id) ∧
      ∀ i id slot, entries[i]? = some (id, slot) →
        w'.find? id = (w.find? id).map (·.planned slot (rank + i)) := by
  induction entries generalizing w rank with
  | nil => exact ⟨w, rfl, fun _ _ => rfl, fun i id slot h => by simp at h⟩
  | cons entry rest ih =>
      obtain ⟨first, slot⟩ := entry
      obtain ⟨hfirst, hrest⟩ := List.nodup_cons.mp hnodup
      obtain ⟨hnow, hothers⟩ := List.forall_mem_cons.mp hfree
      let next := w.modify first (·.planned slot rank)
      have hsame (id : Int) (hid : id ≠ first) : next.find? id = w.find? id := by
        rw [Workflow.find?_modify, if_neg hid]
      have hnext : ∀ entry ∈ rest, next.Free entry.1 := by
        intro entry hentry
        have hmem : entry.1 ∈ rest.map (·.1) := List.mem_map_of_mem hentry
        have hne : entry.1 ≠ first := fun heq => hfirst (heq ▸ hmem)
        exact (hothers entry hentry).congr (hsame entry.1 hne)
      obtain ⟨w', hwrite, hout, hin⟩ := ih hrest hnext (rank + 1)
      refine ⟨w', ?_, fun id hid => ?_, fun i id slot' hi => ?_⟩
      · rw [writeFrom_of_free hnow]
        exact hwrite
      · obtain ⟨hne, hid⟩ := not_or.mp (mt List.mem_cons.mpr hid)
        rw [hout id hid, hsame id hne]
      · cases i with
        | zero =>
            obtain ⟨rfl, rfl⟩ := Prod.mk.inj (Option.some.inj hi)
            rw [hout first hfirst, Workflow.find?_modify, if_pos rfl]
            rfl
        | succ i =>
            have hi : rest[i]? = some (id, slot') := hi
            have hmem : id ∈ rest.map (·.1) :=
              List.mem_map_of_mem (f := (·.1)) (List.mem_of_getElem? hi)
            have hne : id ≠ first := fun heq => hfirst (heq ▸ hmem)
            rw [hin i id slot' hi, hsame id hne, Nat.add_assoc, Nat.add_comm 1 i]

/-- **Writing the first entries** of a plan annotates their tasks, and changes nothing else. -/
theorem tasks_writeFrom {front rest : List (Int × Slot Float)} (hnodup : p.priority.Nodup)
    (hentries : p.entries = front ++ rest) (hfree : ∀ entry ∈ front, w.Free entry.1) :
    ∃ w', writeFrom 0 front w = (w', none) ∧ w'.tasks = w.tasks.map (p.annotate front.length) ∧
      ∀ id, id ∉ front.map (·.1) → w'.find? id = w.find? id := by
  have hfront : (front.map (·.1)).Nodup := by
    unfold priority at hnodup
    rw [hentries, List.map_append] at hnodup
    exact (List.nodup_append.mp hnodup).1
  obtain ⟨w', hwrite, hout, hin⟩ := find?_writeFrom hfront hfree 0
  have hids : w'.ids = w.ids := by
    rw [← ids_writeFrom 0 front w, hwrite]
  refine ⟨w', hwrite, Workflow.tasks_eq_map hids fun t ht => ?_, hout⟩
  have hfind : w.find? t.id = some t := Workflow.find?_of_mem ht
  have hrank (slot : Slot Float) (rank : Nat) (hlt : rank < front.length) :
      p.find? t.id = some (slot, rank) ↔ front[rank]? = some (t.id, slot) := by
    rw [find?_eq_some_iff hnodup, hentries, List.getElem?_append_left hlt]
  by_cases hmem : t.id ∈ front.map (·.1)
  · obtain ⟨⟨id, slot⟩, hentry, hid⟩ := List.mem_map.mp hmem
    obtain ⟨rank, hlt, hget⟩ := List.mem_iff_getElem.mp hentry
    obtain rfl : id = t.id := hid
    have hget : front[rank]? = some (t.id, slot) := by rw [List.getElem?_eq_getElem hlt, hget]
    unfold annotate
    rw [(hrank slot rank hlt).mpr hget, hin rank t.id slot hget, hfind, Nat.zero_add]
    simp only [hlt, if_true, Option.map_some]
  · rw [hout t.id hmem, hfind]
    unfold annotate
    cases hplan : p.find? t.id with
    | none => rfl
    | some found =>
        obtain ⟨slot, rank⟩ := found
        have hge : ¬rank < front.length := fun hlt => hmem <| List.mem_map_of_mem (f := (·.1)) <|
          List.mem_of_getElem? ((hrank slot rank hlt).mp hplan)
        simp only [hge, if_false]

/-! ## writing a plan -/

/-- No entry of a plan conflicts. -/
def Unopposed (p : Plan Float) (w : Workflow) : Prop :=
  ∀ id ∈ p.priority, ∀ fault, ¬w.Conflict id fault

/-- The entry of some rank conflicts, and none of a lower rank does. -/
structure FirstConflict (p : Plan Float) (w : Workflow) (rank : Nat) (fault : Fault) : Prop where
  here : ∃ id, p.priority[rank]? = some id ∧ w.Conflict id fault
  least : ∀ i < rank, ∀ id, p.priority[i]? = some id → ∀ fault, ¬w.Conflict id fault

/-- The tasks of all entries below some rank have the slot and the rank of their entry, and
nothing else is different. -/
def WrittenBelow (p : Plan Float) (below : Nat) (w w' : Workflow) : Prop :=
  w'.tasks = w.tasks.map (p.annotate below)

/-- Either no entry conflicts, or there is a first one that does. -/
theorem unopposed_or_firstConflict (p : Plan Float) (w : Workflow) :
    p.Unopposed w ∨ ∃ rank fault, p.FirstConflict w rank fault := by
  classical
  by_cases hsome : ∃ (rank : Nat) (id : Int) (fault : Fault),
      p.priority[rank]? = some id ∧ w.Conflict id fault
  · obtain ⟨id, fault, hhere⟩ := Nat.find_spec hsome
    refine .inr ⟨Nat.find hsome, fault, ⟨id, hhere⟩, fun i hlt other hi fault' hconflict => ?_⟩
    exact Nat.find_min hsome hlt ⟨other, fault', hi, hconflict⟩
  · refine .inl fun id hid fault hconflict => hsome ?_
    obtain ⟨rank, hrank⟩ := List.mem_iff_getElem?.mp hid
    exact ⟨rank, id, fault, hrank, hconflict⟩

/-- **Without a conflict** a plan is written as a whole. -/
theorem apply_of_unopposed (hnodup : p.priority.Nodup) (h : p.Unopposed w) :
    ∃ w', p.apply w = (w', none) ∧ p.WrittenBelow p.entries.length w w' := by
  have hfree : ∀ entry ∈ p.entries, w.Free entry.1 := by
    intro entry hentry
    refine (w.free_or_conflict entry.1).resolve_right fun ⟨fault, hconflict⟩ => ?_
    exact h entry.1 (List.mem_map_of_mem hentry) fault hconflict
  obtain ⟨w', hwrite, htasks, -⟩ := tasks_writeFrom hnodup (List.append_nil _).symm hfree
  exact ⟨w', hwrite, htasks⟩

/-- **A conflict** leaves the entries in front of it written, which do not change what conflicts. -/
theorem apply_of_firstConflict (hnodup : p.priority.Nodup) {rank : Nat} {fault : Fault}
    (h : p.FirstConflict w rank fault) :
    ∃ w', p.apply w = (w', some fault) ∧ p.WrittenBelow rank w w' := by
  obtain ⟨id, hrank, hconflict⟩ := h.here
  unfold priority at hrank
  rw [List.getElem?_map, Option.map_eq_some_iff] at hrank
  obtain ⟨⟨id, slot⟩, hentry, rfl⟩ := hrank
  obtain ⟨hlt, hget⟩ := List.getElem?_eq_some_iff.mp hentry
  have hlength : (p.entries.take rank).length = rank := List.length_take_of_le hlt.le
  have hsplit : p.entries = p.entries.take rank ++ (id, slot) :: p.entries.drop (rank + 1) := by
    rw [← hget, List.cons_getElem_drop_succ, List.take_append_drop]
  have hfree : ∀ entry ∈ p.entries.take rank, w.Free entry.1 := by
    intro entry hmem
    refine (w.free_or_conflict entry.1).resolve_right fun ⟨fault, hconflict⟩ => ?_
    obtain ⟨i, hi, hget⟩ := List.mem_take_iff_getElem.mp hmem
    refine h.least i (by omega) entry.1 ?_ fault hconflict
    unfold priority
    rw [List.getElem?_map, List.getElem?_eq_getElem (by omega), hget, Option.map_some]
  obtain ⟨w', hwrite, htasks, hout⟩ := tasks_writeFrom hnodup hsplit hfree
  have hnew : id ∉ (p.entries.take rank).map (·.1) := by
    intro hmem
    obtain ⟨entry, hmem, hid⟩ := List.mem_map.mp hmem
    have hfree : w.Free id := hid ▸ hfree entry hmem
    exact hfree.not_conflict fault hconflict
  refine ⟨w', ?_, by rw [WrittenBelow, htasks, hlength]⟩
  unfold apply
  rw [hsplit, writeFrom_append hwrite]
  exact writeFrom_of_conflict (hconflict.congr (hout id hnew))

/-! ## writing another plan -/

/-- A plan whose first entry conflicts changes nothing. -/
theorem apply_of_conflict {id : Int} {fault : Fault} (hhead : p.priority.head? = some id)
    (h : w.Conflict id fault) : p.apply w = (w, some fault) := by
  unfold priority at hhead
  rw [List.head?_map, Option.map_eq_some_iff] at hhead
  obtain ⟨⟨id, slot⟩, hentry, rfl⟩ := hhead
  obtain ⟨rest, hentries⟩ := List.head?_eq_some_iff.mp hentry
  unfold apply
  rw [hentries]
  exact writeFrom_of_conflict h

/-- A task that was written has a rank, and cannot be planned once more. -/
theorem WrittenBelow.conflict (h : p.WrittenBelow p.entries.length w w')
    (hnodup : p.priority.Nodup) {id : Int} (hid : id ∈ p.priority) :
    ∃ fault, w'.Conflict id fault := by
  refine (w'.free_or_conflict id).resolve_left fun ⟨t', hfind, hrank⟩ => ?_
  have hmem : t' ∈ w.tasks.map (p.annotate p.entries.length) :=
    h ▸ List.mem_of_find?_eq_some hfind
  obtain ⟨t, -, rfl⟩ := List.mem_map.mp hmem
  obtain ⟨⟨id, slot⟩, hentry, rfl⟩ := List.mem_map.mp hid
  obtain ⟨rank, hrank'⟩ := List.mem_iff_getElem?.mp hentry
  obtain ⟨hlt, -⟩ := List.getElem?_eq_some_iff.mp hrank'
  have hplan : p.find? t.id = some (slot, rank) := by
    rw [find?_eq_some_iff hnodup, ← id_annotate p p.entries.length t, Workflow.id_of_find? hfind]
    exact hrank'
  have hwritten : p.annotate p.entries.length t = t.planned slot rank := by
    unfold annotate
    rw [hplan]
    exact if_pos hlt
  rw [hwritten, Task.isRanked_eq_false_iff] at hrank
  exact Quantity.isFinite?_int rank hrank

/-- **Writing stops at the first conflict**: a plan that is written into any workflow, be it the
one that it was made for or not, writes all of its entries if none conflicts, and otherwise those
of a lower rank than the first that does, and nothing else.  A rank that is a double, or is an
integer of 64 bits, is never too wide, so that only tasks that are missing or have a finite rank
conflict.  Once a plan has been written, no plan changes anything whose first task it has written
or has a finite rank. -/
theorem prefix_of_build {planned : Workflow} {hosts : List Host} {bound : Int} {padding : Quantity}
    (h : build Float planned hosts bound padding = .ok p) (w : Workflow) :
    (p.Unopposed w ∨ ∃ rank fault, p.FirstConflict w rank fault) ∧
    (∀ rank fault, p.FirstConflict w rank fault →
      ∃ w', p.apply w = (w', some fault) ∧ p.WrittenBelow rank w w') ∧
    (p.Unopposed w → ∃ w', p.apply w = (w', none) ∧ p.WrittenBelow p.entries.length w w' ∧
      ∀ (q : Plan Float) id, q.priority.head? = some id →
        (id ∈ p.priority ∨ ∃ t, w'.find? id = some t ∧ t.rank.isFinite? = some true) →
        ∃ fault, q.apply w' = (w', some fault)) := by
  obtain ⟨platform, first, last, hplanned⟩ := planned_of_build h
  have hnodup := hplanned.nodup_priority
  refine ⟨p.unopposed_or_firstConflict w, fun rank fault => apply_of_firstConflict hnodup,
    fun hfree => ?_⟩
  obtain ⟨w', happly, hwritten⟩ := apply_of_unopposed hnodup hfree
  refine ⟨w', happly, hwritten, fun q id hhead hannotated => ?_⟩
  have hconflict : ∃ fault, w'.Conflict id fault := by
    cases hannotated with
    | inl hid => exact hwritten.conflict hnodup hid
    | inr hranked =>
        obtain ⟨t, hfind, hrank⟩ := hranked
        exact ⟨_, .ranked hfind hrank⟩
  obtain ⟨fault, hconflict⟩ := hconflict
  exact ⟨fault, apply_of_conflict hhead hconflict⟩

/-- If the second task by rank was given a rank by hand, just the first is written; and if none
was, the plan is written once and not again. -/
theorem prefix_loop :
    build Float loop [loopHost] 3 1 = .ok (loopPlan Float) ∧
      (loopPlan Float).FirstConflict (loop.setRank 3 7) 1 (.alreadyPlanned 3) ∧
      (∃ w', (loopPlan Float).apply (loop.setRank 3 7) = (w', some (.alreadyPlanned 3)) ∧
        (loopPlan Float).WrittenBelow 1 (loop.setRank 3 7) w') ∧
      (loopPlan Float).Unopposed loop ∧
      ∃ w' fault, (loopPlan Float).apply loop = (w', none) ∧
        (loopPlan Float).apply w' = (w', some fault) := by
  have hfirst : (loopPlan Float).FirstConflict (loop.setRank 3 7) 1 (.alreadyPlanned 3) := by
    have hranked : ∃ t ∈ (loop.setRank 3 7).find? 3, t.rank.isFinite? = some true := by
      decide +kernel
    obtain ⟨t, hfind, hrank⟩ := hranked
    refine ⟨⟨3, rfl, .ranked hfind hrank⟩, fun i hi id hid fault => ?_⟩
    obtain rfl : i = 0 := Nat.lt_one_iff.mp hi
    obtain rfl : 1 = id := Option.some.inj hid
    have hfree : (loop.setRank 3 7).Free 1 := by decide +kernel
    exact hfree.not_conflict fault
  have hfree : (loopPlan Float).Unopposed loop := by
    have hfree : ∀ id ∈ (loopPlan Float).priority, loop.Free id := by decide +kernel
    exact fun id hid => (hfree id hid).not_conflict
  obtain ⟨-, hstops, -⟩ := prefix_of_build build_loop_float (loop.setRank 3 7)
  obtain ⟨-, -, hwrites⟩ := prefix_of_build build_loop_float loop
  obtain ⟨w', happly, -, hagain⟩ := hwrites hfree
  obtain ⟨fault, hfault⟩ := hagain (loopPlan Float) 1 rfl (.inl List.mem_cons_self)
  exact ⟨build_loop_float, hfirst, hstops 1 _ hfirst, hfree, w', fault, happly, hfault⟩

end Plan

end SharedLink
