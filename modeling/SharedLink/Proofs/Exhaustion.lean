import SharedLink.Proofs.Rounds

/-!
# SharedLink.Proofs.Exhaustion

What a pass leaves to do.

A pass keeps the tasks and the hosts that are left in lists of its own.  Here its rounds
are looked at from outside: each takes the tasks of the ready list that are not bound and
the hosts that are idle as they are at the time, with all bindings made so far in them.
It turns out that both come to the same, and that the bound on the rounds never ends a
pass: it goes on until no such task or no such host is there, or a finish time is out of
range.  None of this needs the ranks or the finish times to be in an order, so NaN may be
among them.

* `round` — one round, by the state of tasks and hosts at the time;
* `rounds_pass` — a pass is such rounds, up to the first one that binds nothing;
* `pass_eq_of_exhausted` — where nothing is left, further passes bind nothing;
* `exhausts_pass` — what a pass leaves, whether it ends without a fault or with one.
-/

namespace SharedLink

namespace Dispatch

variable {τ : Type} [Timescale τ] {now : τ} {w : Workflow} {hosts : List Host} {ids : List Int}

/-! ## one round -/

/-- What a round comes to. -/
inductive Round where
  /-- there is no task to bind or no host to bind it to -/
  | spent
  /-- a finish time of the task is out of range -/
  | failed (t : Task) (fault : Fault)
  /-- a task gets a host -/
  | bound (b : Binding)

/-- The tasks of some ids that are not bound. -/
def waiting (w : Workflow) (ids : List Int) : List Task :=
  (ids.filterMap w.find?).filter (!·.isBound)

/-- The next round over the tasks of some ids, by what they and the hosts are at the time. -/
def round (now : τ) (ids : List Int) (state : Workflow × List Host) : Round :=
  match Selection.firstLeastOn Quantity.before (·.rank) (waiting state.1 ids) with
  | none => .spent
  | some t =>
    match finishTimes now t (idleHosts state.2) with
    | .error fault => .failed t fault
    | .ok times =>
      match Selection.firstLeast (fun a b => decide (a < b)) times with
      | none => .spent
      | some (_, h, place) => .bound ⟨t.id, place, h.name⟩

/-- Rounds that enter what they bind, up to the first that binds nothing. -/
inductive Rounds (now : τ) (ids : List Int) :
    Workflow × List Host → List Binding → Option Fault → Prop
  | spent {state : Workflow × List Host} (last : round now ids state = .spent) :
      Rounds now ids state [] none
  | failed {state : Workflow × List Host} {t : Task} {fault : Fault}
      (last : round now ids state = .failed t fault) : Rounds now ids state [] (some fault)
  | bound {state : Workflow × List Host} {b : Binding} {bs : List Binding} {fault : Option Fault}
      (first : round now ids state = .bound b) (rest : Rounds now ids (enter state b) bs fault) :
      Rounds now ids state (b :: bs) fault

/-! ## binding changes what is left -/

omit [Timescale τ] in
/-- Of the tasks of a workflow those that are not bound wait. -/
theorem waiting_of_ready {ready : List Task} (hready : ∀ t ∈ ready, w.find? t.id = some t) :
    waiting w (ready.map (·.id)) = ready.filter (!·.isBound) := by
  have hall : (ready.map (·.id)).filterMap w.find? = ready := by
    rw [List.filterMap_map]
    exact (List.filterMap_congr hready).trans List.filterMap_some
  unfold waiting
  rw [hall]

omit [Timescale τ] in
/-- A task that is bound does not wait any more, and the others do. -/
theorem waiting_setHost (w : Workflow) (ids : List Int) (id : Int) (name : String) :
    waiting (w.setHost id (some name)) ids = (waiting w ids).filter (·.id ≠ id) := by
  unfold waiting
  rw [List.filter_filterMap, List.filter_filterMap, List.filter_filterMap]
  refine List.filterMap_congr fun other _ => ?_
  have hfind : (w.setHost id (some name)).find? other = if other = id then
      (w.find? other).map fun t => { t with host := some name } else w.find? other :=
    Workflow.find?_modify w id _ other
  rw [hfind]
  cases hother : w.find? other with
  | none => simp
  | some t =>
      have hid : t.id = other := Workflow.id_of_find? hother
      by_cases heq : other = id
      · cases hhost : t.host <;> simp [heq, hid, hhost, Task.isBound, Option.filter_some]
      · cases hhost : t.host <;> simp [heq, hid, hhost, Task.isBound, Option.filter_some]

omit [Timescale τ] in
/-- A host that is made busy is not idle any more, and the others stay as they are. -/
theorem filter_idle_modify (hosts : List Host) (place first : Nat) :
    ((hosts.modify place fun h => { h with state := .busy }).zipIdx first).filter (·.1.isIdle) =
      ((hosts.zipIdx first).filter (·.1.isIdle)).filter (·.2 ≠ first + place) := by
  induction hosts generalizing place first with
  | nil => simp
  | cons h hosts ih =>
      cases place with
      | zero =>
          have hothers : ((hosts.zipIdx (first + 1)).filter (·.1.isIdle)).filter (·.2 ≠ first + 0) =
              (hosts.zipIdx (first + 1)).filter (·.1.isIdle) := by
            refine List.filter_eq_self.mpr fun host hhost => decide_eq_true ?_
            have := List.le_snd_of_mem_zipIdx (List.mem_of_mem_filter hhost)
            omega
          rw [List.modify_zero_cons, List.zipIdx_cons, List.zipIdx_cons, List.filter_cons,
            if_neg (by simp [Host.isIdle]), List.filter_cons]
          split
          · rw [List.filter_cons, if_neg (by simp), hothers]
          · rw [hothers]
      | succ place =>
          have hplace : first + 1 + place = first + (place + 1) := by omega
          rw [List.modify_succ_cons, List.zipIdx_cons, List.zipIdx_cons, List.filter_cons,
            List.filter_cons, ih, hplace]
          split
          · rw [List.filter_cons, if_pos (decide_eq_true (by omega))]
          · rfl

/-! ## a pass is rounds -/

omit [Timescale τ] in
/-- After a binding its task does not wait any more, and its host is not idle. -/
theorem left_enter (state : Workflow × List Host) (ids : List Int) (b : Binding) :
    waiting (enter state b).1 ids = (waiting state.1 ids).filter (·.id ≠ b.task) ∧
      idleHosts (enter state b).2 = (idleHosts state.2).filter (·.2 ≠ b.host) :=
  ⟨waiting_setHost state.1 ids b.task b.hostName,
    (filter_idle_modify state.2 b.host 0).trans (by rw [Nat.zero_add]; rfl)⟩

/-- The first of the rounds that are assigned is this one. -/
theorem assign_round (now : τ) (ids : List Int) (state : Workflow × List Host) (n : Nat) :
    assign now (n + 1) (waiting state.1 ids) (idleHosts state.2) =
      match round now ids state with
      | .spent => ([], none)
      | .failed _ fault => ([], some fault)
      | .bound b =>
        let (rest, fault) :=
          assign now n (waiting (enter state b).1 ids) (idleHosts (enter state b).2)
        (b :: rest, fault) := by
  rw [assign, round]
  cases Selection.firstLeastOn Quantity.before (·.rank) (waiting state.1 ids) with
  | none => rfl
  | some t =>
      dsimp only
      cases finishTimes now t (idleHosts state.2) with
      | error fault => rfl
      | ok times =>
          dsimp only
          cases Selection.firstLeast (fun a b => decide (a < b)) times with
          | none => rfl
          | some best =>
              dsimp only
              rw [(left_enter state ids _).1, (left_enter state ids _).2]

/-- A round that binds leaves fewer tasks. -/
theorem fewer_of_bound {state : Workflow × List Host} {b : Binding}
    (h : round now ids state = .bound b) :
    (waiting (enter state b).1 ids).length < (waiting state.1 ids).length := by
  rw [(left_enter state ids b).1]
  unfold round at h
  split at h
  · cases h
  next t hleast =>
    split at h
    · cases h
    · split at h
      · cases h
      · obtain rfl := Round.bound.inj h
        exact length_filter_id_ne_lt (Selection.mem_of_firstLeastOn hleast)

/-- What is assigned is what the rounds come to, if they are as many as tasks wait. -/
theorem rounds_assign {n : Nat} {state : Workflow × List Host}
    (hn : (waiting state.1 ids).length ≤ n) :
    Rounds now ids state (assign now n (waiting state.1 ids) (idleHosts state.2)).1
      (assign now n (waiting state.1 ids) (idleHosts state.2)).2 := by
  induction n generalizing state with
  | zero =>
      have hnone : waiting state.1 ids = [] := List.length_eq_zero_iff.mp (Nat.le_zero.mp hn)
      refine .spent ?_
      unfold round
      rw [Selection.firstLeastOn_eq_none_iff.mpr hnone]
  | succ n ih =>
      rw [assign_round]
      cases hround : round now ids state with
      | spent => exact .spent hround
      | failed t fault => exact .failed hround
      | bound b =>
          have hfewer := fewer_of_bound hround
          exact .bound hround (ih (by omega))

/-- **A pass is rounds**: it goes on until a round binds nothing. -/
theorem rounds_pass {ready : List Task} (hready : ∀ t ∈ ready, w.find? t.id = some t)
    (hosts : List Host) (now : τ) :
    Rounds now (ready.map (·.id)) (w, hosts) (pass w hosts ready now).bindings
      (pass w hosts ready now).fault := by
  have hrounds : Rounds now (ready.map (·.id)) (w, hosts) _ _ := rounds_assign le_rfl
  rw [waiting_of_ready hready] at hrounds
  exact hrounds

/-- After the last binding there is a round that binds nothing. -/
theorem Rounds.last {state : Workflow × List Host} {bs : List Binding} {fault : Option Fault}
    (h : Rounds now ids state bs fault) :
    fault = none ∧ round now ids (bs.foldl enter state) = .spent ∨
      ∃ t f, fault = some f ∧ round now ids (bs.foldl enter state) = .failed t f := by
  induction h with
  | spent last => exact .inl ⟨rfl, last⟩
  | failed last => exact .inr ⟨_, _, rfl, last⟩
  | bound first rest ih => exact ih

/-! ## the last round -/

/-- A round with nothing to bind has no task or no idle host. -/
theorem left_of_spent {state : Workflow × List Host} (h : round now ids state = .spent) :
    waiting state.1 ids = [] ∨ idleHosts state.2 = [] := by
  unfold round at h
  split at h
  next hnone => exact .inl (Selection.firstLeastOn_eq_none_iff.mp hnone)
  · split at h
    · cases h
    next times htimes =>
      split at h
      next hnone =>
        rw [Selection.firstLeast_eq_none_iff.mp hnone] at htimes
        exact .inr (finishTimes_eq_nil_iff.mp htimes)
      · cases h

/-- Finish times fail where one of them is out of range. -/
theorem overflow_of_finishTimes {t : Task} {idle : List (Host × Nat)} {fault : Fault}
    (h : finishTimes now t idle = .error fault) :
    fault = .overflow ∧ ∃ host ∈ idle, finishOn now t host.1 = .error .overflow := by
  obtain ⟨host, hhost, hfault⟩ := exists_error_of_mapM h
  have hfault : timeOn τ t host.1 = .error fault :=
    (bind_eq_error_iff.mp hfault).resolve_right fun ⟨_, _, hpure⟩ => nomatch hpure
  have hoverflow : fault = .overflow := by
    unfold timeOn at hfault
    split at hfault
    · cases hfault
    · exact (Except.error.inj hfault).symm
  rw [hoverflow] at hfault
  exact ⟨hoverflow, host, hhost, bind_eq_error_iff.mpr (.inl hfault)⟩

/-- A round fails over a task that waits, which has a finish time out of range on an idle host. -/
theorem overflow_of_failed {state : Workflow × List Host} {t : Task} {fault : Fault}
    (h : round now ids state = .failed t fault) :
    t ∈ waiting state.1 ids ∧ fault = .overflow ∧
      ∃ host ∈ idleHosts state.2, finishOn now t host.1 = .error .overflow := by
  unfold round at h
  split at h
  · cases h
  next hleast =>
    split at h
    next htimes =>
      obtain ⟨rfl, rfl⟩ := Round.failed.inj h
      exact ⟨Selection.mem_of_firstLeastOn hleast, overflow_of_finishTimes htimes⟩
    · split at h
      · cases h
      · cases h

/-! ## what is left -/

omit [Timescale τ] in
/-- After bindings the other tasks wait, and the other hosts are idle, as they were. -/
theorem left_foldl_enter (state : Workflow × List Host) (ids : List Int) (bs : List Binding) :
    waiting (bs.foldl enter state).1 ids =
        (waiting state.1 ids).filter (fun t => !(bs.map (·.task)).contains t.id) ∧
      idleHosts (bs.foldl enter state).2 = available (idleHosts state.2) (bs.map (·.host)) := by
  induction bs generalizing state with
  | nil => simp [available]
  | cons b bs ih =>
      obtain ⟨htasks, hhosts⟩ := left_enter state ids b
      obtain ⟨hwaiting, hidle⟩ := ih (enter state b)
      rw [List.foldl_cons, hwaiting, hidle, htasks, hhosts, available_filter, List.filter_filter]
      refine ⟨List.filter_congr fun t _ => ?_, rfl⟩
      rw [List.map_cons, List.contains_cons, Bool.not_or, Bool.and_comm]
      congr 1
      rw [Bool.eq_iff_iff]
      simp

/-- A task is found after a pass as before, but for the host that it may have got. -/
theorem find?_pass (w : Workflow) (hosts : List Host) (ready : List Task) (now : τ) (id : Int) :
    (pass w hosts ready now).workflow.find? id = (w.find? id).map fun t =>
      match (pass w hosts ready now).bindings.find? (·.task == t.id) with
      | some b => { t with host := some b.hostName }
      | none => t := by
  unfold Workflow.find?
  rw [tasks_pass, List.find?_map]
  congr 2
  funext t
  rw [Function.comp_apply]
  split <;> rfl

omit [Timescale τ] in
theorem mem_waiting {t : Task} :
    t ∈ waiting w ids ↔ (∃ id ∈ ids, w.find? id = some t) ∧ t.isBound = false := by
  simp [waiting]

/-- A task that waits after a pass was listed as it is then. -/
theorem mem_ready_of_waiting {ready : List Task} (hready : ∀ t ∈ ready, w.find? t.id = some t)
    {t : Task} (ht : t ∈ waiting (pass w hosts ready now).workflow (ready.map (·.id))) :
    t ∈ ready ∧ t.isBound = false ∧ (pass w hosts ready now).workflow.find? t.id = some t := by
  obtain ⟨⟨id, -, hfind⟩, hunbound⟩ := mem_waiting.mp ht
  have hleft := (left_foldl_enter (w, hosts) (ready.map (·.id))
    (pass w hosts ready now).bindings).1
  rw [← entered_pass] at hleft
  rw [hleft] at ht
  have hlisted : t ∈ ready.filter (!·.isBound) :=
    waiting_of_ready hready ▸ List.mem_of_mem_filter ht
  refine ⟨List.mem_of_mem_filter hlisted, hunbound, ?_⟩
  rw [Workflow.id_of_find? hfind]
  exact hfind

/-- A host that is idle after a pass was idle before. -/
theorem mem_idleHosts_of_pass {ready : List Task} {host : Host × Nat}
    (hhost : host ∈ idleHosts (pass w hosts ready now).hosts) : host ∈ idleHosts hosts := by
  have hleft := (left_foldl_enter (w, hosts) (ready.map (·.id))
    (pass w hosts ready now).bindings).2
  rw [← entered_pass] at hleft
  rw [hleft] at hhost
  exact List.mem_of_mem_filter hhost

/-- Where no task of a workflow's waits after a pass, all that were ready are bound. -/
theorem isSome_hostOf_of_waiting {ready : List Task} (hready : ∀ t ∈ ready, w.find? t.id = some t)
    (hnone : waiting (pass w hosts ready now).workflow (ready.map (·.id)) = []) {t : Task}
    (ht : t ∈ ready) : ((pass w hosts ready now).workflow.hostOf t.id).isSome = true := by
  obtain ⟨u, hu⟩ : ∃ u, (pass w hosts ready now).workflow.find? t.id = some u := by
    rw [find?_pass, hready t ht]
    exact ⟨_, rfl⟩
  by_contra hunbound
  have hwaits : u ∈ waiting (pass w hosts ready now).workflow (ready.map (·.id)) := by
    refine mem_waiting.mpr ⟨⟨t.id, List.mem_map_of_mem ht, hu⟩, ?_⟩
    simpa [Workflow.hostOf, hu, Task.isBound] using hunbound
  rw [hnone] at hwaits
  cases hwaits

/-! ## further passes -/

/-- From one state to another no host is released, and no task loses its host. -/
structure NothingFreed (w : Workflow) (hosts : List Host) (w' : Workflow) (hosts' : List Host) :
    Prop where
  tasks : ∀ id, (w.hostOf id).isSome = true → (w'.hostOf id).isSome = true
  hosts : ∀ place, stateOf hosts' place = some .idle → stateOf hosts place = some .idle

omit [Timescale τ] in
/-- Where no host is idle and none is released, no host is idle. -/
theorem NothingFreed.idleHosts_eq_nil {w' : Workflow} {hosts' : List Host}
    (h : NothingFreed w hosts w' hosts') (hnone : idleHosts hosts = []) :
    idleHosts hosts' = [] := by
  refine List.eq_nil_iff_forall_not_mem.mpr fun ⟨host, place⟩ hhost => ?_
  obtain ⟨hplace, hidle⟩ := mem_idleHosts.mp hhost
  have hstate : stateOf hosts' place = some .idle := by
    rw [stateOf, hplace]
    exact congrArg some (of_decide_eq_true hidle)
  obtain ⟨other, hother, hidle⟩ := Option.map_eq_some_iff.mp (h.hosts place hstate)
  have hmem : (other, place) ∈ idleHosts hosts :=
    mem_idleHosts.mpr ⟨hother, decide_eq_true hidle⟩
  rw [hnone] at hmem
  cases hmem

/-- **A further pass** over tasks that are all bound, or without an idle host, changes nothing. -/
theorem pass_eq_of_exhausted {ready : List Task}
    (h : (∀ t ∈ ready, t.isBound = true) ∨ idleHosts hosts = []) :
    pass w hosts ready now = ⟨w, hosts, [], none⟩ := by
  have hassign : assign now (ready.filter (!·.isBound)).length (ready.filter (!·.isBound))
      (idleHosts hosts) = ([], none) := by
    cases h with
    | inl hbound =>
        have hnone : ready.filter (!·.isBound) = [] := by simpa using hbound
        rw [hnone]
        rfl
    | inr hnone =>
        rw [hnone]
        cases (ready.filter (!·.isBound)).length with
        | zero => rfl
        | succ rounds =>
            rw [assign]
            split <;> rfl
  exact pass_eq_of_assign w hassign

/-- What a pass comes to that goes on until nothing is left to do, or a finish time is out of range.

Without a fault every ready task is bound or no host is idle, and no pass over ready tasks binds
anything until a host is released.  With a fault the bindings made so far stand and nothing else is
changed; the task that is next and the hosts that are idle are as they were, and on one of these
the finish time of the task is out of range. -/
structure Exhausts (w : Workflow) (hosts : List Host) (ready : List Task) (now : τ)
    (result : Dispatched) : Prop where
  rounds : Rounds now (ready.map (·.id)) (w, hosts) result.bindings result.fault
  isOpen : AllOpen w hosts result.bindings
  bound : result.workflow.tasks = w.tasks.map fun t =>
    match result.bindings.find? (·.task == t.id) with
    | some b => { t with host := some b.hostName }
    | none => t
  busy : ∀ place, result.hosts[place]? = hosts[place]?.map fun h =>
    if result.bindings.any (·.host == place) then { h with state := .busy } else h
  exhausted : result.fault = none →
    (∀ t ∈ ready, (result.workflow.hostOf t.id).isSome = true) ∨ idleHosts result.hosts = []
  settled : result.fault = none → ∀ (w' : Workflow) (hosts' : List Host) (ready' : List Task)
    (now' : τ), NothingFreed result.workflow result.hosts w' hosts' →
    (∀ t ∈ ready', w'.find? t.id = some t ∧ t.id ∈ ready.map (·.id)) →
    pass w' hosts' ready' now' = ⟨w', hosts', [], none⟩
  stopped : ∀ fault, result.fault = some fault → fault = .overflow ∧ ∃ t ∈ ready,
    round now (ready.map (·.id)) (result.workflow, result.hosts) = .failed t fault ∧
    t.isBound = false ∧ result.workflow.find? t.id = some t ∧
    (∀ host ∈ idleHosts result.hosts, host ∈ idleHosts hosts) ∧
    ∃ host ∈ idleHosts result.hosts, finishOn now t host.1 = .error .overflow

/-- **A pass leaves nothing to do**, and one that fails keeps what it has done. -/
theorem exhausts_pass {w : Workflow} (hosts : List Host) {ready : List Task} (now : τ)
    (hready : ∀ t ∈ ready, w.find? t.id = some t) :
    Exhausts w hosts ready now (pass w hosts ready now) := by
  have hrounds := rounds_pass hready hosts now
  have hlast := hrounds.last
  rw [← entered_pass] at hlast
  have hexhausted (hfault : (pass w hosts ready now).fault = none) :
      (∀ t ∈ ready, ((pass w hosts ready now).workflow.hostOf t.id).isSome = true) ∨
        idleHosts (pass w hosts ready now).hosts = [] := by
    obtain ⟨-, hspent⟩ | ⟨t, f, hsome, -⟩ := hlast
    · exact (left_of_spent hspent).imp_left fun hnone t ht =>
        isSome_hostOf_of_waiting hready hnone ht
    · rw [hfault] at hsome
      cases hsome
  refine ⟨hrounds, allOpen_pass hready now, tasks_pass w hosts ready now,
    hosts_pass w hosts ready now, hexhausted, ?_, ?_⟩
  · intro hfault w' hosts' ready' now' hkept hready'
    refine pass_eq_of_exhausted ((hexhausted hfault).imp (fun hbound t ht => ?_)
      hkept.idleHosts_eq_nil)
    obtain ⟨hfind, hid⟩ := hready' t ht
    obtain ⟨s, hs, hsame⟩ := List.mem_map.mp hid
    have hhost := hkept.tasks t.id (hsame ▸ hbound s hs)
    simpa [Workflow.hostOf, hfind, Task.isBound] using hhost
  · intro fault hfault
    obtain ⟨hnone, -⟩ | ⟨t, f, hsome, hfailed⟩ := hlast
    · rw [hfault] at hnone
      cases hnone
    rw [hfault] at hsome
    obtain rfl := Option.some.inj hsome
    obtain ⟨hwaits, hoverflow, hout⟩ := overflow_of_failed hfailed
    obtain ⟨hlisted, hunbound, hfind⟩ := mem_ready_of_waiting hready hwaits
    exact ⟨hoverflow, t, hlisted, hfailed, hunbound, hfind, fun _ => mem_idleHosts_of_pass, hout⟩

/-- Three tasks, of which the second is too long for any finish time. -/
def strained : Workflow where
  tasks := [
    { Task.make 1 6 1 none none with rank := .int 0 },
    { Task.make 2 (.int (10 ^ 400)) 1 none none with rank := .int 1 },
    { Task.make 3 4 1 none none with rank := .int 2 }]
  nodup_ids := by decide

/-- The first task gets its host and the pass stops at the second, over the host that is left.  Of
the other tasks two are bound, and then there is no host for a further pass. -/
theorem exhausts_strained :
    ((pass strained crew strained.tasks (0 : Float)).bindings = [⟨1, 2, "brisk"⟩] ∧
      Exhausts strained crew strained.tasks (0 : Float)
        (pass strained crew strained.tasks (0 : Float)) ∧
      ∃ t ∈ strained.tasks,
        (pass strained crew strained.tasks (0 : Float)).workflow.find? t.id = some t ∧
        ∃ host ∈ idleHosts (pass strained crew strained.tasks (0 : Float)).hosts,
          finishOn (0 : Float) t host.1 = .error .overflow) ∧
    ∃ result, result = pass crowd crew (crowdOf [2, 1, 4, 3, 2]) (0 : Float) ∧
      result.bindings = [⟨3, 2, "brisk"⟩, ⟨2, 1, "slow"⟩] ∧
      pass result.workflow result.hosts (result.workflow.tasks.filter (·.id = 1)) (7 : Float) =
        ⟨result.workflow, result.hosts, [], none⟩ := by
  have hready : ∀ t ∈ strained.tasks, strained.find? t.id = some t := by decide +kernel
  have hcrowd : ∀ t ∈ crowdOf [2, 1, 4, 3, 2], crowd.find? t.id = some t := by decide +kernel
  have hstrained := exhausts_pass crew (0 : Float) hready
  refine ⟨⟨by decide +kernel, hstrained, ?_⟩, _, rfl, by decide +kernel, ?_⟩
  · obtain ⟨-, t, ht, -, -, hfind, -, hout⟩ := hstrained.stopped .overflow (by decide +kernel)
    exact ⟨t, ht, hfind, hout⟩
  · exact (exhausts_pass crew (0 : Float) hcrowd).settled (by decide +kernel) _ _ _ _
      ⟨fun _ h => h, fun _ h => h⟩ (by decide +kernel)

end Dispatch

end SharedLink
