import SharedLink.Dispatch
import SharedLink.Proofs.Outcomes

/-!
# SharedLink.Proofs.Passes

What one pass binds.

Each round takes a task and a host from those that are left and passes on the rest
without them, so the bindings of a pass name different tasks and different hosts,
all of them unbound and idle when the pass began.

* `assign_succ` — what a round does;
* `nodup_task_assign`, `nodup_host_assign` — nothing is bound twice in a pass;
* `exists_of_mem_assign` — what is bound comes from what was offered.
-/

namespace SharedLink

namespace Dispatch

variable {τ : Type} [Timescale τ] {now : τ} {rounds : Nat} {tasks : List Task}
  {idle : List (Host × Nat)}

/-- Every finish time is that of a host. -/
theorem mem_of_finishTimes {t : Task} {times : List (τ × Host × Nat)}
    (h : finishTimes now t idle = .ok times) {time : τ × Host × Nat} (htime : time ∈ times) :
    time.2 ∈ idle := by
  unfold finishTimes at h
  induction mapM_eq_ok_iff.mp h with
  | nil => cases htime
  | @cons host time' idle times' hhead hrest ih =>
      cases List.mem_cons.mp htime with
      | inl heq =>
          obtain ⟨finish, -, hpair⟩ := bind_eq_ok_iff.mp hhead
          rw [heq, ← Except.ok.inj hpair]
          exact List.mem_cons_self
      | inr htime =>
          exact List.mem_cons_of_mem _ (ih (mapM_eq_ok_iff.mpr hrest) htime)

/-- A round binds nothing, and then it is the last, or it binds one of the tasks to one
of the hosts and leaves the others. -/
theorem assign_succ (now : τ) (rounds : Nat) (tasks : List Task) (idle : List (Host × Nat)) :
    (assign now (rounds + 1) tasks idle).1 = [] ∨
    ∃ t ∈ tasks, ∃ h place, (h, place) ∈ idle ∧
      (assign now (rounds + 1) tasks idle).1 = ⟨t.id, place, h.name⟩ ::
        (assign now rounds (tasks.filter (·.id ≠ t.id)) (idle.filter (·.2 ≠ place))).1 := by
  rw [assign]
  split
  · exact .inl rfl
  next t ht =>
    split
    · exact .inl rfl
    next times htimes =>
      split
      · exact .inl rfl
      next time h place hbest =>
        have hmem : (time, h, place) ∈ times := Selection.mem_of_firstLeast hbest
        exact .inr ⟨t, Selection.mem_of_firstLeastOn ht, h, place,
          mem_of_finishTimes htimes hmem, rfl⟩

/-- What is bound comes from what was offered. -/
theorem exists_of_mem_assign {b : Binding} (h : b ∈ (assign now rounds tasks idle).1) :
    (∃ t ∈ tasks, t.id = b.task) ∧ ∃ host, (host, b.host) ∈ idle ∧ host.name = b.hostName := by
  induction rounds generalizing tasks idle with
  | zero => cases h
  | succ rounds ih =>
      cases assign_succ now rounds tasks idle with
      | inl hnone =>
          rw [hnone] at h
          cases h
      | inr hsome =>
          obtain ⟨t, ht, host, place, hhost, hround⟩ := hsome
          rw [hround] at h
          cases List.mem_cons.mp h with
          | inl heq =>
              rw [heq]
              exact ⟨⟨t, ht, rfl⟩, host, hhost, rfl⟩
          | inr hrest =>
              obtain ⟨⟨u, hu, hid⟩, other, hother, hname⟩ := ih hrest
              exact ⟨⟨u, List.mem_of_mem_filter hu, hid⟩, other,
                List.mem_of_mem_filter hother, hname⟩

/-- No task is bound twice in a pass. -/
theorem nodup_task_assign : ((assign now rounds tasks idle).1.map (·.task)).Nodup := by
  induction rounds generalizing tasks idle with
  | zero => exact .nil
  | succ rounds ih =>
      cases assign_succ now rounds tasks idle with
      | inl hnone =>
          rw [hnone]
          exact .nil
      | inr hsome =>
          obtain ⟨t, -, host, place, -, hround⟩ := hsome
          rw [hround, List.map_cons, List.nodup_cons]
          refine ⟨fun hmem => ?_, ih⟩
          obtain ⟨b, hb, htask⟩ := List.mem_map.mp hmem
          obtain ⟨⟨u, hu, hid⟩, -⟩ := exists_of_mem_assign hb
          have hne : u.id ≠ t.id := by simpa using (List.mem_filter.mp hu).2
          exact hne (hid.trans htask)

/-- No host is bound twice in a pass. -/
theorem nodup_host_assign : ((assign now rounds tasks idle).1.map (·.host)).Nodup := by
  induction rounds generalizing tasks idle with
  | zero => exact .nil
  | succ rounds ih =>
      cases assign_succ now rounds tasks idle with
      | inl hnone =>
          rw [hnone]
          exact .nil
      | inr hsome =>
          obtain ⟨t, -, host, place, -, hround⟩ := hsome
          rw [hround, List.map_cons, List.nodup_cons]
          refine ⟨fun hmem => ?_, ih⟩
          obtain ⟨b, hb, hhost⟩ := List.mem_map.mp hmem
          obtain ⟨-, other, hother, -⟩ := exists_of_mem_assign hb
          have hne : b.host ≠ place := by simpa using (List.mem_filter.mp hother).2
          exact hne hhost

end Dispatch

/-! ## what a pass changes -/

/-- The host that the task of an id is bound to. -/
def Workflow.hostOf (w : Workflow) (id : Int) : Option String := (w.find? id).bind (·.host)

/-- The state of the host at a place. -/
def stateOf (hosts : List Host) (place : Nat) : Option HostState := hosts[place]?.map (·.state)

/-- Binding a task changes its host and no other. -/
theorem hostOf_setHost {w : Workflow} {id : Int} (h : w.contains id = true) (name : String)
    (other : Int) :
    (w.setHost id (some name)).hostOf other = if other = id then some name else w.hostOf other := by
  unfold Workflow.hostOf Workflow.setHost
  rw [Workflow.find?_modify]
  by_cases heq : other = id
  · obtain ⟨t, ht⟩ := Workflow.contains_iff_find?.mp h
    simp [heq, ht]
  · simp [heq]

/-- Putting a host into a state changes no other host. -/
theorem stateOf_modify (hosts : List Host) (place : Nat) (f : Host → Host) (state : HostState)
    (hf : ∀ h, (f h).state = state) (other : Nat) :
    stateOf (hosts.modify place f) other =
      if place = other then (stateOf hosts other).map fun _ => state else stateOf hosts other := by
  unfold stateOf
  rw [List.getElem?_modify]
  by_cases heq : place = other
  · cases hosts[other]? with
    | none => simp
    | some h => simp [heq, hf]
  · simp [heq]

namespace Dispatch

/-- A binding that can be entered: of an unbound task to an idle host. -/
structure Open (w : Workflow) (hosts : List Host) (b : Binding) : Prop where
  task : w.contains b.task = true
  unbound : w.hostOf b.task = none
  idle : stateOf hosts b.host = some .idle

/-- A binding stays open when another task is bound to another host. -/
theorem Open.enter {w : Workflow} {hosts : List Host} {b c : Binding} (hb : Open w hosts b)
    (hc : Open w hosts c) (htask : c.task ≠ b.task) (hhost : c.host ≠ b.host) :
    Open (enter (w, hosts) b).1 (enter (w, hosts) b).2 c := by
  unfold Dispatch.enter
  refine ⟨?_, ?_, ?_⟩
  · have hids : (w.setHost b.task (some b.hostName)).ids = w.ids := Workflow.ids_modify _ _ _
    unfold Workflow.contains
    rw [hids]
    exact hc.task
  · rw [hostOf_setHost hb.task, if_neg htask]
    exact hc.unbound
  · rw [stateOf_modify _ _ _ .busy fun _ => rfl, if_neg fun heq => hhost heq.symm]
    exact hc.idle

/-- Bindings of different tasks to different hosts, all of which can be entered. -/
structure AllOpen (w : Workflow) (hosts : List Host) (bindings : List Binding) : Prop where
  nodup_tasks : (bindings.map (·.task)).Nodup
  nodup_hosts : (bindings.map (·.host)).Nodup
  isOpen : ∀ b ∈ bindings, Open w hosts b

/-- They are entered one after the other. -/
theorem AllOpen.enter {w : Workflow} {hosts : List Host} {b : Binding} {rest : List Binding}
    (h : AllOpen w hosts (b :: rest)) :
    AllOpen (enter (w, hosts) b).1 (enter (w, hosts) b).2 rest := by
  obtain ⟨htask, htasks⟩ := List.nodup_cons.mp h.nodup_tasks
  obtain ⟨hhost, hhosts⟩ := List.nodup_cons.mp h.nodup_hosts
  refine ⟨htasks, hhosts, fun c hc => ?_⟩
  refine (h.isOpen b List.mem_cons_self).enter (h.isOpen c (List.mem_cons_of_mem b hc)) ?_ ?_
  · intro heq
    exact htask (List.mem_map.mpr ⟨c, hc, heq⟩)
  · intro heq
    exact hhost (List.mem_map.mpr ⟨c, hc, heq⟩)

/-- **A pass** makes bindings that can all be entered, if its tasks are those of the workflow. -/
theorem allOpen_pass {τ : Type} [Timescale τ] {w : Workflow} {hosts : List Host}
    {ready : List Task} (hready : ∀ t ∈ ready, w.find? t.id = some t) (now : τ) :
    AllOpen w hosts (pass w hosts ready now).bindings := by
  refine ⟨nodup_task_assign, nodup_host_assign, fun b hb => ?_⟩
  obtain ⟨⟨t, ht, hid⟩, h, hhost, -⟩ := exists_of_mem_assign hb
  obtain ⟨ht, hunbound⟩ := List.mem_filter.mp ht
  obtain ⟨hhost, hidle⟩ := List.mem_filter.mp hhost
  have hfind : w.find? b.task = some t := hid ▸ hready t ht
  constructor
  · exact Workflow.contains_iff_find?.mpr ⟨t, hfind⟩
  · unfold Workflow.hostOf
    rw [hfind]
    simpa [Task.isBound] using hunbound
  · have hplace : hosts[b.host]? = some h := List.mk_mem_zipIdx_iff_getElem?.mp hhost
    unfold stateOf
    rw [hplace]
    exact congrArg some (of_decide_eq_true hidle)

/-- It enters them, and that is all it does. -/
theorem entered_pass {τ : Type} [Timescale τ] (w : Workflow) (hosts : List Host)
    (ready : List Task) (now : τ) :
    ((pass w hosts ready now).workflow, (pass w hosts ready now).hosts) =
      (pass w hosts ready now).bindings.foldl enter (w, hosts) := rfl

/-! ## more hosts than are known -/

/-- Only hosts that are there have a state. -/
theorem lt_of_stateOf {hosts : List Host} {place : Nat} {state : HostState}
    (h : stateOf hosts place = some state) : place < hosts.length := by
  unfold stateOf at h
  rw [Option.map_eq_some_iff] at h
  obtain ⟨host, hhost, -⟩ := h
  exact (List.getElem?_eq_some_iff.mp hhost).1

/-- Bindings that are open among some hosts are open among more. -/
theorem AllOpen.append {w : Workflow} {hosts : List Host} {bs : List Binding}
    (h : AllOpen w hosts bs) (more : List Host) : AllOpen w (hosts ++ more) bs where
  nodup_tasks := h.nodup_tasks
  nodup_hosts := h.nodup_hosts
  isOpen b hb := by
    obtain ⟨htask, hunbound, hidle⟩ := h.isOpen b hb
    refine ⟨htask, hunbound, ?_⟩
    have hlt := lt_of_stateOf hidle
    unfold stateOf at hidle ⊢
    rw [List.getElem?_append_left hlt]
    exact hidle

/-- Entering bindings leaves hosts behind those that they are to as they are. -/
theorem foldl_enter_append {w : Workflow} {hosts : List Host} {bs : List Binding}
    (h : ∀ b ∈ bs, b.host < hosts.length) (more : List Host) :
    bs.foldl enter (w, hosts ++ more) =
      ((bs.foldl enter (w, hosts)).1, (bs.foldl enter (w, hosts)).2 ++ more) := by
  induction bs generalizing w hosts with
  | nil => rfl
  | cons b rest ih =>
      obtain ⟨hb, hrest⟩ := List.forall_mem_cons.mp h
      have happend : (hosts ++ more).modify b.host (fun h => { h with state := .busy }) =
          hosts.modify b.host (fun h => { h with state := .busy }) ++ more := by
        apply List.ext_getElem?
        intro place
        rw [List.getElem?_modify, List.getElem?_append, List.getElem?_append, List.length_modify]
        by_cases hplace : place < hosts.length
        · rw [if_pos hplace, if_pos hplace, List.getElem?_modify]
        · have hne : b.host ≠ place := by omega
          rw [if_neg hplace, if_neg hplace]
          simp [hne]
      have hlength : ∀ c ∈ rest,
          c.host < (hosts.modify b.host fun h => { h with state := .busy }).length := by
        rw [List.length_modify]
        exact hrest
      rw [List.foldl_cons, List.foldl_cons]
      unfold enter
      dsimp only
      rw [happend]
      exact ih hlength

end Dispatch

end SharedLink
