import SharedLink.Proofs.Passes
import SharedLink.Proofs.Ranks
import SharedLink.Proofs.Selections
import SharedLink.Proofs.Stability

/-!
# SharedLink.Proofs.Rounds

The rounds of a pass, all at once.

Each round takes the first task of the lowest rank out of those that are left, so a pass
goes through the tasks as a stable sort by rank lists them, every task once.  It binds
them in turn for as long as there are idle hosts, each to the first of those that would
finish it earliest.

* `assign_eq_inTurn`, `stablySorted_picks` — taking out the least task again and again is sorting;
* `inTurn_hosts` — the host of each task, among those that are left;
* `dispatches_pass` — what a pass binds and changes, and what it does not depend on.
-/

namespace SharedLink

/-! ## without repetitions -/

section

variable {α : Type} [BEq α] [LawfulBEq α]

/-- Where repetitions are left out, nothing is left twice. -/
theorem nodup_eraseDups (xs : List α) : xs.eraseDups.Nodup := by
  induction hlength : xs.length using Nat.strongRecOn generalizing xs with
  | ind length ih =>
      cases xs with
      | nil => exact List.nodup_nil
      | cons x xs =>
          have hshort : (xs.filter fun y => !y == x).length < length := by
            rw [← hlength]
            exact Nat.lt_succ_of_le (List.length_filter_le _ _)
          rw [List.eraseDups_cons, List.nodup_cons]
          refine ⟨fun hmem => ?_, ih _ hshort _ rfl⟩
          have hne := (List.mem_filter.mp (List.mem_eraseDups.mp hmem)).2
          simp at hne

/-- An element and the others without their repetitions are all that there is. -/
theorem perm_cons_eraseDups {x : α} {xs : List α} (hx : x ∈ xs) :
    (x :: (xs.filter fun y => !y == x).eraseDups).Perm xs.eraseDups := by
  have hnew : x ∉ (xs.filter fun y => !y == x).eraseDups := by simp
  refine (List.perm_ext_iff_of_nodup (List.nodup_cons.mpr ⟨hnew, nodup_eraseDups _⟩)
    (nodup_eraseDups xs)).mpr fun y => ?_
  rw [List.mem_cons, List.mem_eraseDups, List.mem_eraseDups, List.mem_filter]
  by_cases hyx : y = x
  · simp [hyx, hx]
  · simp [hyx]

/-- Leaving out repetitions can be done before an element is taken out or after. -/
theorem eraseDups_split {front : List α} {x : α} (hx : x ∉ front) (back : List α) :
    ∃ later, (front ++ x :: back).eraseDups = front.eraseDups ++ x :: later ∧
      ((front ++ x :: back).filter fun y => !y == x).eraseDups = front.eraseDups ++ later := by
  have hfront : (front.filter fun y => !y == x) = front := by
    refine List.filter_eq_self.mpr fun y hy => ?_
    rw [Bool.not_eq_true', beq_eq_false_iff_ne]
    rintro rfl
    exact hx hy
  have hrest : (x :: back).removeAll front = x :: back.removeAll front := by
    unfold List.removeAll
    rw [List.filter_cons, if_pos (by simpa using hx)]
  refine ⟨((back.removeAll front).filter fun y => !y == x).eraseDups, ?_, ?_⟩
  · rw [List.eraseDups_append, hrest, List.eraseDups_cons]
  · rw [List.filter_append, hfront, List.filter_cons, if_neg (by simp), List.eraseDups_append]
    unfold List.removeAll
    rw [List.filter_filter, List.filter_filter]
    simp only [Bool.and_comm]

/-- The stable sort of a list without its repetitions starts with the first of its least elements,
and goes on with the sort of what is left when all its repetitions are taken out. -/
theorem StablySorted.cons_eraseDups {before : α → α → Bool} {p : α → Prop}
    (order : StrictWeakOn before p) {front back sorted : List α} {x : α}
    (hxs : ∀ y ∈ front ++ x :: back, p y) (hfront : ∀ y ∈ front, before x y = true)
    (hback : ∀ y ∈ back, before y x = false)
    (h : StablySorted before ((front ++ x :: back).filter fun y => !y == x).eraseDups sorted) :
    StablySorted before (front ++ x :: back).eraseDups (x :: sorted) := by
  have hx : x ∉ front := fun hmem => by
    have hbefore := hfront x hmem
    rw [order.irrefl (hxs x (List.mem_append_left _ hmem))] at hbefore
    cases hbefore
  obtain ⟨later, hall, hrest⟩ := eraseDups_split hx back
  have hmem {y : α} (hy : y ∈ front.eraseDups ++ x :: later) : y ∈ front ++ x :: back := by
    rw [← hall] at hy
    exact List.mem_eraseDups.mp hy
  rw [hrest] at h
  rw [hall]
  refine h.cons order (fun y hy => hxs y (hmem hy))
    (fun y hy => hfront y (List.mem_eraseDups.mp hy)) fun y hy => ?_
  have hsplit : y ∈ front ∨ y = x ∨ y ∈ back :=
    (List.mem_append.mp (hmem (List.mem_append_right _ (List.mem_cons_of_mem x hy)))).imp_right
      List.mem_cons.mp
  obtain hy' | rfl | hy' := hsplit
  · exact order.asymm (hxs x (List.mem_append_right _ List.mem_cons_self))
      (hxs y (List.mem_append_left _ hy')) (hfront y hy')
  · exact order.irrefl (hxs y (List.mem_append_right _ List.mem_cons_self))
  · exact hback y hy'

end

namespace Dispatch

variable {τ : Type} [Timescale τ] {now : τ} {rounds : Nat} {tasks sorted : List Task}
  {idle : List (Host × Nat)}

/-! ## the order of the tasks -/

/-- A task of a lower rank comes first. -/
def byRank (s t : Task) : Bool := s.rank.before t.rank

theorem strictWeakOn_byRank : StrictWeakOn byRank fun t => t.rank.IsNumber where
  asymm hs ht := Quantity.strictWeakOn_before.asymm hs ht
  trans hr hs ht := Quantity.strictWeakOn_before.trans hr hs ht

/-- Bind tasks in turn, up to the first for which there is no idle host or no finish time. -/
def inTurn (now : τ) : List Task → List (Host × Nat) → List Binding × Option Fault
  | [], _ => ([], none)
  | t :: rest, idle =>
    match finishTimes now t idle with
    | .error fault => ([], some fault)
    | .ok times =>
      match Selection.firstLeast (fun a b => decide (a < b)) times with
      | none => ([], none)
      | some (_, h, place) =>
        let (later, fault) := inTurn now rest (idle.filter (·.2 ≠ place))
        (⟨t.id, place, h.name⟩ :: later, fault)

/-- Tasks in the order in which rounds take them: the first of the lowest rank, again and again. -/
def picks : (rounds : Nat) → List Task → List Task
  | 0, _ => []
  | rounds + 1, tasks =>
    match Selection.firstLeastOn Quantity.before (·.rank) tasks with
    | none => []
    | some t => t :: picks rounds (tasks.filter (·.id ≠ t.id))

/-- **A pass goes in turn**: it binds the tasks in the order in which its rounds take them. -/
theorem assign_eq_inTurn (now : τ) (rounds : Nat) (tasks : List Task) (idle : List (Host × Nat)) :
    assign now rounds tasks idle = inTurn now (picks rounds tasks) idle := by
  induction rounds generalizing tasks idle with
  | zero => rfl
  | succ rounds ih =>
      rw [assign, picks]
      cases Selection.firstLeastOn Quantity.before (·.rank) tasks with
      | none => rfl
      | some t =>
          dsimp only
          rw [inTurn]
          cases finishTimes now t idle with
          | error fault => rfl
          | ok times =>
              dsimp only
              cases Selection.firstLeast (fun a b => decide (a < b)) times with
              | none => rfl
              | some best =>
                  dsimp only
                  rw [ih]

omit [Timescale τ] in
/-- The tasks of other ids are fewer. -/
theorem length_filter_id_ne_lt {t : Task} (ht : t ∈ tasks) :
    (tasks.filter (·.id ≠ t.id)).length < tasks.length :=
  List.length_filter_lt_length_iff_exists.mpr ⟨t, ht, by simp⟩

omit [Timescale τ] in
/-- If ids tell tasks apart, the tasks of other ids are all but one. -/
theorem filter_id_ne (hids : ∀ s ∈ tasks, ∀ t ∈ tasks, s.id = t.id → s = t) {t : Task}
    (ht : t ∈ tasks) : tasks.filter (·.id ≠ t.id) = tasks.filter fun s => !s == t := by
  refine List.filter_congr fun s hs => ?_
  rw [decide_not, Bool.not_inj_iff, Bool.eq_iff_iff, decide_eq_true_eq, beq_iff_eq]
  exact ⟨hids s hs t ht, congrArg _⟩

omit [Timescale τ] in
/-- What rounds take is one of the tasks. -/
theorem mem_of_mem_picks {t : Task} (h : t ∈ picks rounds tasks) : t ∈ tasks := by
  induction rounds generalizing tasks with
  | zero => cases h
  | succ rounds ih =>
      rw [picks] at h
      split at h
      · cases h
      next first hleast =>
        obtain rfl | h := List.mem_cons.mp h
        · exact Selection.mem_of_firstLeastOn hleast
        · exact List.mem_of_mem_filter (ih h)

omit [Timescale τ] in
/-- So many rounds take every task once. -/
theorem perm_picks (hids : ∀ s ∈ tasks, ∀ t ∈ tasks, s.id = t.id → s = t)
    (hrounds : tasks.length ≤ rounds) : (picks rounds tasks).Perm tasks.eraseDups := by
  induction rounds generalizing tasks with
  | zero =>
      obtain rfl := List.length_eq_zero_iff.mp (Nat.le_zero.mp hrounds)
      exact .nil
  | succ rounds ih =>
      rw [picks]
      cases hleast : Selection.firstLeastOn Quantity.before (·.rank) tasks with
      | none =>
          obtain rfl : tasks = [] := Selection.firstLeastOn_eq_none_iff.mp hleast
          exact .nil
      | some t =>
          have ht : t ∈ tasks := Selection.mem_of_firstLeastOn hleast
          have hfewer : (tasks.filter (·.id ≠ t.id)).length ≤ rounds :=
            Nat.le_of_lt_succ (Nat.lt_of_lt_of_le (length_filter_id_ne_lt ht) hrounds)
          have hrest := ih (fun s hs u hu => hids s (List.mem_of_mem_filter hs) u
            (List.mem_of_mem_filter hu)) hfewer
          dsimp only
          rw [filter_id_ne hids ht] at hrest ⊢
          exact (hrest.cons t).trans (perm_cons_eraseDups ht)

omit [Timescale τ] in
/-- **Selecting is sorting**: tasks that are taken by the lowest rank again and again come in the
order of a stable sort, each once. -/
theorem stablySorted_picks (hids : ∀ s ∈ tasks, ∀ t ∈ tasks, s.id = t.id → s = t)
    (hranks : ∀ t ∈ tasks, t.rank.IsNumber) (hrounds : tasks.length ≤ rounds) :
    StablySorted byRank tasks.eraseDups (picks rounds tasks) := by
  induction rounds generalizing tasks with
  | zero =>
      obtain rfl := List.length_eq_zero_iff.mp (Nat.le_zero.mp hrounds)
      exact ⟨.nil, .nil, fun t ht => absurd ht List.not_mem_nil⟩
  | succ rounds ih =>
      rw [picks]
      cases hleast : Selection.firstLeastOn Quantity.before (·.rank) tasks with
      | none =>
          obtain rfl : tasks = [] := Selection.firstLeastOn_eq_none_iff.mp hleast
          exact ⟨.nil, .nil, fun t ht => absurd ht List.not_mem_nil⟩
      | some t =>
          obtain ⟨front, back, htasks, hfront, hback⟩ := Selection.exists_split_of_firstLeastOn
            (ahead_of_strictWeakOn Quantity.strictWeakOn_before) hranks hleast
          have ht : t ∈ tasks := Selection.mem_of_firstLeastOn hleast
          have hfewer : (tasks.filter (·.id ≠ t.id)).length ≤ rounds :=
            Nat.le_of_lt_succ (Nat.lt_of_lt_of_le (length_filter_id_ne_lt ht) hrounds)
          have hrest := ih (fun s hs u hu => hids s (List.mem_of_mem_filter hs) u
            (List.mem_of_mem_filter hu)) (fun s hs => hranks s (List.mem_of_mem_filter hs)) hfewer
          dsimp only
          rw [filter_id_ne hids ht, htasks] at hrest
          rw [filter_id_ne hids ht, htasks]
          exact hrest.cons_eraseDups strictWeakOn_byRank (htasks ▸ hranks) hfront hback

/-! ## the host of each task -/

/-- When a host would finish a task that starts now. -/
def finishOn (now : τ) (t : Task) (h : Host) : Except Fault τ := return now + (← timeOn τ t h)

/-- A host is the first of those that would finish a task earliest: all hosts in front of it would
finish it later, and none behind it would finish it earlier. -/
def FirstToFinish (now : τ) (t : Task) (idle : List (Host × Nat)) (chosen : Host × Nat) : Prop :=
  ∃ front back finish, idle = front ++ chosen :: back ∧ finishOn now t chosen.1 = .ok finish ∧
    (∀ other ∈ front, ∃ later, finishOn now t other.1 = .ok later ∧ ¬later ≤ finish) ∧
    ∀ other ∈ back, ∃ later, finishOn now t other.1 = .ok later ∧ ¬later < finish

/-- The least finish time is that of the first host to finish. -/
theorem firstToFinish_of_firstLeast [Timescale.Ordered τ] {t : Task}
    {times : List (τ × Host × Nat)} {best : τ × Host × Nat} (h : finishTimes now t idle = .ok times)
    (hbest : Selection.firstLeast (fun a b => decide (a < b)) times = some best) :
    FirstToFinish now t idle best.2 := by
  have hresult {host : Host × Nat} {time : τ × Host × Nat}
      (hrun : (do return (now + (← timeOn τ t host.1), host.1, host.2) : Except Fault _) =
        .ok time) : time.2 = host ∧ finishOn now t host.1 = .ok time.1 := by
    obtain ⟨length, hlength, htime⟩ := bind_eq_ok_iff.mp hrun
    rw [← Except.ok.inj htime]
    exact ⟨rfl, bind_eq_ok_iff.mpr ⟨length, hlength, rfl⟩⟩
  obtain ⟨hhosts, htimes⟩ := keyed_of_mapM (fun host time hrun => (hresult hrun).1) h
  obtain ⟨front, back, rfl, hfront, hback⟩ :=
    Selection.splits_of_firstLeast ahead_lt (fun _ _ => trivial) hbest
  have hfinish {time : τ × Host × Nat} (htime : time ∈ front ++ best :: back) :
      finishOn now t time.2.1 = .ok time.1 := (hresult (htimes time htime)).2
  refine ⟨front.map (·.2), back.map (·.2), best.1, ?_,
    hfinish (List.mem_append_right _ List.mem_cons_self), ?_, ?_⟩
  · rw [← hhosts, List.map_append, List.map_cons]
  · refine List.forall_mem_map.mpr fun time htime => ?_
    exact ⟨time.1, hfinish (List.mem_append_left _ htime), hfront time htime⟩
  · refine List.forall_mem_map.mpr fun time htime => ?_
    exact ⟨time.1, hfinish (List.mem_append_right _ (List.mem_cons_of_mem best htime)),
      of_decide_eq_false (hback time htime)⟩

/-- There are no finish times just if there are no hosts. -/
theorem finishTimes_eq_nil_iff {t : Task} : finishTimes now t idle = .ok [] ↔ idle = [] := by
  unfold finishTimes
  rw [mapM_eq_ok_iff, List.forall₂_nil_right_iff]

/-- Binding a list of tasks in turn without a fault: nothing is bound if there is no task or no
idle host, and otherwise the first task gets the first host to finish it. -/
theorem inTurn_cons [Timescale.Ordered τ] {t : Task} {rest : List Task}
    (hfault : (inTurn now (t :: rest) idle).2 = none) :
    (idle = [] ∧ (inTurn now (t :: rest) idle).1 = []) ∨
    ∃ h place, FirstToFinish now t idle (h, place) ∧
      (inTurn now rest (idle.filter (·.2 ≠ place))).2 = none ∧
      (inTurn now (t :: rest) idle).1 =
        ⟨t.id, place, h.name⟩ :: (inTurn now rest (idle.filter (·.2 ≠ place))).1 := by
  rw [inTurn] at hfault ⊢
  cases htimes : finishTimes now t idle with
  | error fault => simp [htimes] at hfault
  | ok times =>
      dsimp only
      cases hbest : Selection.firstLeast (fun a b => decide (a < b)) times with
      | none =>
          rw [Selection.firstLeast_eq_none_iff.mp hbest] at htimes
          exact .inl ⟨finishTimes_eq_nil_iff.mp htimes, rfl⟩
      | some best =>
          obtain ⟨time, h, place⟩ := best
          simp only [htimes, hbest] at hfault
          exact .inr ⟨h, place, firstToFinish_of_firstLeast htimes hbest, hfault, rfl⟩

/-- Where no place occurs twice, a host is taken out by its place. -/
theorem filter_place {front back : List (Host × Nat)} {chosen : Host × Nat}
    (hplaces : ((front ++ chosen :: back).map (·.2)).Nodup) :
    (front ++ chosen :: back).filter (·.2 ≠ chosen.2) = front ++ back := by
  rw [List.map_append, List.map_cons, List.nodup_middle, List.nodup_cons, ← List.map_append]
    at hplaces
  have hothers (host : Host × Nat) (hhost : host ∈ front ++ back) :
      decide (host.2 ≠ chosen.2) = true :=
    decide_eq_true fun heq => hplaces.1 (heq ▸ List.mem_map_of_mem hhost)
  rw [List.filter_append, List.filter_cons, if_neg (by simp), ← List.filter_append]
  exact List.filter_eq_self.mpr hothers

/-- As many tasks are bound as there are tasks and idle hosts, the first of them in turn. -/
theorem inTurn_tasks [Timescale.Ordered τ] (hplaces : (idle.map (·.2)).Nodup)
    (hfault : (inTurn now sorted idle).2 = none) :
    (inTurn now sorted idle).1.length = min sorted.length idle.length ∧
      (inTurn now sorted idle).1.map (·.task) =
        (sorted.take (min sorted.length idle.length)).map (·.id) := by
  induction sorted generalizing idle with
  | nil => simp [inTurn]
  | cons t rest ih =>
      rcases inTurn_cons hfault with ⟨rfl, hnone⟩ | ⟨h, place, hfirst, hlater, hbound⟩
      · rw [hnone]
        simp
      · obtain ⟨front, back, finish, hsplit, -⟩ := hfirst
        have hleft : (idle.filter (·.2 ≠ place)).length + 1 = idle.length := by
          rw [hsplit] at hplaces ⊢
          rw [filter_place hplaces, List.length_append, List.length_append, List.length_cons]
          omega
        obtain ⟨hcount, htasks⟩ := ih (hplaces.sublist (List.filter_sublist.map _)) hlater
        rw [hbound, List.length_cons, List.map_cons, htasks, hcount, List.length_cons, ← hleft,
          Nat.succ_min_succ, List.take_succ_cons, List.map_cons]
        exact ⟨rfl, rfl⟩

/-- The hosts that are idle and not taken, with their places. -/
def available (idle : List (Host × Nat)) (taken : List Nat) : List (Host × Nat) :=
  idle.filter fun host => !taken.contains host.2

theorem available_filter (idle : List (Host × Nat)) (place : Nat) (taken : List Nat) :
    available (idle.filter (·.2 ≠ place)) taken = available idle (place :: taken) := by
  unfold available
  rw [List.filter_filter]
  refine List.filter_congr fun host _ => ?_
  rw [List.contains_cons, Bool.not_or, Bool.and_comm]
  congr 1
  rw [Bool.eq_iff_iff]
  simp

/-- Each task in turn gets the first host to finish it, of those that are not taken. -/
theorem inTurn_hosts [Timescale.Ordered τ] (hfault : (inTurn now sorted idle).2 = none) {i : Nat}
    {b : Binding} {t : Task} (hb : (inTurn now sorted idle).1[i]? = some b)
    (ht : sorted[i]? = some t) :
    ∃ h, h.name = b.hostName ∧ FirstToFinish now t
      (available idle (((inTurn now sorted idle).1.take i).map (·.host))) (h, b.host) := by
  induction sorted generalizing idle i with
  | nil => cases ht
  | cons first rest ih =>
      rcases inTurn_cons hfault with ⟨-, hnone⟩ | ⟨h, place, hfirst, hlater, hbound⟩
      · rw [hnone] at hb
        cases hb
      · rw [hbound] at hb ⊢
        cases i with
        | zero =>
            obtain rfl := Option.some.inj hb
            obtain rfl := Option.some.inj ht
            refine ⟨h, rfl, ?_⟩
            unfold available
            simpa using hfirst
        | succ i =>
            obtain ⟨host, hname, hfirst⟩ := ih hlater hb ht
            refine ⟨host, hname, ?_⟩
            rw [List.take_succ_cons, List.map_cons, ← available_filter]
            exact hfirst

/-! ## what is changed -/

/-- Entering bindings of different tasks gives each of them its host and changes no other task. -/
theorem foldl_enter_tasks {w : Workflow} {hosts : List Host} {bindings : List Binding}
    (hnodup : (bindings.map (·.task)).Nodup) :
    (bindings.foldl enter (w, hosts)).1.tasks = w.tasks.map fun t =>
      match bindings.find? (·.task == t.id) with
      | some b => { t with host := some b.hostName }
      | none => t := by
  induction bindings generalizing w hosts with
  | nil => simp
  | cons b rest ih =>
      obtain ⟨hnew, hrest⟩ := List.nodup_cons.mp hnodup
      have hnone : rest.find? (·.task == b.task) = none := by
        refine List.find?_eq_none.mpr fun c hc heq => hnew ?_
        exact List.mem_map.mpr ⟨c, hc, eq_of_beq heq⟩
      rw [List.foldl_cons, ih hrest]
      unfold enter Workflow.setHost Workflow.modify
      rw [List.map_map]
      refine List.map_congr_left fun t _ => ?_
      rw [Function.comp_apply, List.find?_cons]
      by_cases heq : t.id = b.task
      · simp [heq, hnone]
      · have hne : (b.task == t.id) = false := beq_eq_false_iff_ne.mpr fun h => heq h.symm
        simp only [if_neg heq, hne]

/-- Entering bindings makes their hosts busy and changes no other host. -/
theorem foldl_enter_hosts (w : Workflow) (hosts : List Host) (bindings : List Binding)
    (place : Nat) :
    (bindings.foldl enter (w, hosts)).2[place]? = hosts[place]?.map fun h =>
      if bindings.any (·.host == place) then { h with state := .busy } else h := by
  induction bindings generalizing w hosts with
  | nil => simp
  | cons b rest ih =>
      have henter : enter (w, hosts) b = (w.setHost b.task (some b.hostName),
          hosts.modify b.host fun h => { h with state := .busy }) := rfl
      rw [List.foldl_cons, henter, ih, List.getElem?_modify, List.any_cons]
      by_cases heq : b.host = place
      · cases hosts[place]? with
        | none => simp
        | some h => simp [heq]
      · have hne : (b.host == place) = false := beq_eq_false_iff_ne.mpr heq
        simp [heq, hne]

/-- A pass gives the tasks that it binds their hosts and changes no other task. -/
theorem tasks_pass (w : Workflow) (hosts : List Host) (ready : List Task) (now : τ) :
    (pass w hosts ready now).workflow.tasks = w.tasks.map fun t =>
      match (pass w hosts ready now).bindings.find? (·.task == t.id) with
      | some b => { t with host := some b.hostName }
      | none => t :=
  (congrArg (·.1.tasks) (entered_pass w hosts ready now)).trans
    (foldl_enter_tasks nodup_task_assign)

/-- It makes their hosts busy and changes no other host. -/
theorem hosts_pass (w : Workflow) (hosts : List Host) (ready : List Task) (now : τ) (place : Nat) :
    (pass w hosts ready now).hosts[place]? = hosts[place]?.map fun h =>
      if (pass w hosts ready now).bindings.any (·.host == place) then { h with state := .busy }
      else h :=
  (congrArg (·.2[place]?) (entered_pass w hosts ready now)).trans
    (foldl_enter_hosts w hosts _ place)

/-! ## a whole pass -/

/-- The tasks of a list that are not bound, each once. -/
def unbound (ready : List Task) : List Task := (ready.filter (!·.isBound)).eraseDups

/-- The idle hosts, with their places. -/
def idleHosts (hosts : List Host) : List (Host × Nat) := hosts.zipIdx.filter (·.1.isIdle)

omit [Timescale τ] in
theorem mem_idleHosts {hosts : List Host} {h : Host} {place : Nat} :
    (h, place) ∈ idleHosts hosts ↔ hosts[place]? = some h ∧ h.isIdle = true := by
  rw [idleHosts, List.mem_filter, List.mk_mem_zipIdx_iff_getElem?]

/-- A pass is what it assigns, and that is entered. -/
theorem pass_eq_of_assign (w : Workflow) {hosts : List Host} {ready : List Task}
    {bindings : List Binding} {fault : Option Fault}
    (h : assign now (ready.filter (!·.isBound)).length (ready.filter (!·.isBound))
      (idleHosts hosts) = (bindings, fault)) :
    pass w hosts ready now = ⟨(bindings.foldl enter (w, hosts)).1,
      (bindings.foldl enter (w, hosts)).2, bindings, fault⟩ := by
  unfold idleHosts at h
  unfold pass
  dsimp only
  rw [h]

/-- What a pass does about a list of tasks: it binds as many of the first as there are idle hosts,
each in turn to the first host to finish it of those that are not taken, and it gives these tasks
their hosts, makes these hosts busy, and changes nothing else. -/
structure Dispatches (w : Workflow) (hosts : List Host) (now : τ) (sorted : List Task)
    (result : Dispatched) : Prop where
  length : result.bindings.length = min sorted.length (idleHosts hosts).length
  tasks : result.bindings.map (·.task) =
    (sorted.take (min sorted.length (idleHosts hosts).length)).map (·.id)
  chosen : ∀ (i : Nat) (b : Binding) (t : Task), result.bindings[i]? = some b →
    sorted[i]? = some t → ∃ h, h.name = b.hostName ∧ FirstToFinish now t
      (available (idleHosts hosts) ((result.bindings.take i).map (·.host))) (h, b.host)
  bound : result.workflow.tasks = w.tasks.map fun t =>
    match result.bindings.find? (·.task == t.id) with
    | some b => { t with host := some b.hostName }
    | none => t
  busy : ∀ place, result.hosts[place]? = hosts[place]?.map fun h =>
    if result.bindings.any (·.host == place) then { h with state := .busy } else h

/-- Each idle host stands at one place. -/
theorem nodup_idleHosts (hosts : List Host) : ((idleHosts hosts).map (·.2)).Nodup := by
  have hplaces : (hosts.zipIdx.map (·.2)).Nodup := by
    rw [List.zipIdx_map_snd]
    exact List.nodup_range'
  exact hplaces.sublist (List.filter_sublist.map _)

/-- A pass without a fault binds the sorted tasks in turn. -/
theorem dispatches_of_inTurn [Timescale.Ordered τ] (w : Workflow) (hosts : List Host)
    {ready : List Task}
    (hassign : assign now (ready.filter (!·.isBound)).length (ready.filter (!·.isBound))
      (idleHosts hosts) = inTurn now sorted (idleHosts hosts))
    (hfault : (pass w hosts ready now).fault = none) :
    Dispatches w hosts now sorted (pass w hosts ready now) := by
  have hbindings : (pass w hosts ready now).bindings = (inTurn now sorted (idleHosts hosts)).1 :=
    congrArg Prod.fst hassign
  have hfault : (inTurn now sorted (idleHosts hosts)).2 = none := by
    rw [← hassign]
    exact hfault
  obtain ⟨hlength, htasks⟩ := inTurn_tasks (nodup_idleHosts hosts) hfault
  refine ⟨?_, ?_, fun i b t hb ht => ?_, tasks_pass w hosts ready now, hosts_pass w hosts ready now⟩
  · rw [hbindings, hlength]
  · rw [hbindings, htasks]
  · rw [hbindings] at hb ⊢
    exact inTurn_hosts hfault hb ht

/-- The tasks of a list are told apart by their ids, if they are those of a workflow. -/
theorem eq_of_id {w : Workflow} {ready : List Task} (hready : ∀ t ∈ ready, w.find? t.id = some t)
    {s t : Task} (hs : s ∈ ready) (ht : t ∈ ready) (hid : s.id = t.id) : s = t := by
  have hfound := hready s hs
  rw [hid, hready t ht] at hfound
  exact (Option.some.inj hfound).symm

/-- The rounds of a pass go through the tasks in the stable order of their ranks. -/
theorem exists_inTurn_pass {w : Workflow} {ready : List Task}
    (hready : ∀ t ∈ ready, w.find? t.id = some t) (hranks : ∀ t ∈ unbound ready, t.rank.IsNumber)
    (now : τ) : ∃ sorted, StablySorted byRank (unbound ready) sorted ∧
      ∀ idle, assign now (ready.filter (!·.isBound)).length (ready.filter (!·.isBound)) idle =
        inTurn now sorted idle :=
  ⟨_, stablySorted_picks
    (fun _ hs _ ht => eq_of_id hready (List.mem_of_mem_filter hs) (List.mem_of_mem_filter ht))
    (fun t ht => hranks t (List.mem_eraseDups.mpr ht)) le_rfl, fun _ => assign_eq_inTurn now _ _ _⟩

/-- Tasks of which no two have the same rank are sorted in one way only. -/
theorem sorted_unique {xs ys sorted sorted' : List Task} (hperm : xs.Perm ys)
    (hdistinct : ∀ s ∈ xs, ∀ t ∈ xs, s ≠ t → byRank s t = true ∨ byRank t s = true)
    (h : StablySorted byRank xs sorted) (h' : StablySorted byRank ys sorted') :
    sorted = sorted' := by
  refine List.Perm.eq_of_pairwise (fun s t hs ht hst hts => ?_) h.sorted h'.sorted
    ((h.perm.trans hperm).trans h'.perm.symm)
  by_contra hne
  have hs : s ∈ xs := h.perm.mem_iff.mp hs
  have ht : t ∈ xs := hperm.mem_iff.mpr (h'.perm.mem_iff.mp ht)
  cases hdistinct s hs t ht hne with
  | inl hbefore => rw [hts] at hbefore; cases hbefore
  | inr hbefore => rw [hst] at hbefore; cases hbefore

/-- **A pass** goes through the distinct unbound tasks in the stable order of their ranks; and if
no two ranks are the same, it comes to the same whatever the order and repetitions of its tasks. -/
theorem dispatches_pass [Timescale.Ordered τ] {w : Workflow} (hosts : List Host)
    {ready : List Task} (now : τ) (hready : ∀ t ∈ ready, w.find? t.id = some t)
    (hranks : ∀ t ∈ unbound ready, t.rank.IsNumber) :
    (∃ sorted, StablySorted byRank (unbound ready) sorted ∧
      ((pass w hosts ready now).fault = none →
        Dispatches w hosts now sorted (pass w hosts ready now))) ∧
    ((∀ s ∈ unbound ready, ∀ t ∈ unbound ready, s ≠ t →
        byRank s t = true ∨ byRank t s = true) →
      ∀ ready', (∀ t, t ∈ ready' ↔ t ∈ ready) →
        pass w hosts ready' now = pass w hosts ready now) := by
  obtain ⟨sorted, hsorted, hassign⟩ := exists_inTurn_pass hready hranks now
  refine ⟨⟨sorted, hsorted, dispatches_of_inTurn w hosts (hassign _)⟩,
    fun hdistinct ready' hsame => ?_⟩
  have hmem (t : Task) : t ∈ unbound ready' ↔ t ∈ unbound ready := by
    unfold unbound
    rw [List.mem_eraseDups, List.mem_eraseDups, List.mem_filter, List.mem_filter, hsame]
  have hperm : (unbound ready).Perm (unbound ready') :=
    (List.perm_ext_iff_of_nodup (nodup_eraseDups _) (nodup_eraseDups _)).mpr fun t => (hmem t).symm
  obtain ⟨sorted', hsorted', hassign'⟩ := exists_inTurn_pass
    (fun t ht => hready t ((hsame t).mp ht)) (fun t ht => hranks t ((hmem t).mp ht)) now
  obtain rfl := sorted_unique hperm hdistinct hsorted hsorted'
  unfold pass
  dsimp only
  rw [hassign', ← hassign]

/-- Three tasks to bind, two of them of the same rank, and one that is bound. -/
def crowd : Workflow where
  tasks := [
    { Task.make 1 6 1 none none with rank := .int 2 },
    { Task.make 2 9 1 none none with rank := .double 2 },
    { Task.make 3 4 1 none none with rank := .int 0 },
    { Task.make 4 1 1 none none with rank := .int 1, host := some "busy" }]
  nodup_ids := by decide

/-- A fast host that is busy, and two that are idle. -/
def crew : List Host := [
  { name := "busy", speed := 9, bandwidth := 16, cores := 1, state := .busy },
  { name := "slow", speed := 1, bandwidth := 16, cores := 1, state := .idle },
  { name := "brisk", speed := 2, bandwidth := 16, cores := 1, state := .idle }]

/-- The tasks of some ids. -/
def crowdOf (ids : List Int) : List Task := ids.filterMap crowd.find?

/-- The task of the lowest rank gets the brisk host; of the other two the one that is listed first
gets the slow one.  Without it the order and repetitions make no difference. -/
theorem dispatches_crowd :
    (pass crowd crew (crowdOf [2, 1, 4, 3, 2]) (0 : Float)).bindings =
      [⟨3, 2, "brisk"⟩, ⟨2, 1, "slow"⟩] ∧
    (∃ sorted, StablySorted byRank (unbound (crowdOf [2, 1, 4, 3, 2])) sorted ∧
      Dispatches crowd crew (0 : Float) sorted
        (pass crowd crew (crowdOf [2, 1, 4, 3, 2]) (0 : Float))) ∧
    pass crowd crew (crowdOf [3, 4, 3, 1]) (0 : Float) =
      pass crowd crew (crowdOf [1, 3, 4]) (0 : Float) := by
  have hfault : (pass crowd crew (crowdOf [2, 1, 4, 3, 2]) (0 : Float)).fault = none := by
    decide +kernel
  have hall : ∀ t ∈ crowdOf [2, 1, 4, 3, 2], crowd.find? t.id = some t := by decide +kernel
  have hsome : ∀ t ∈ crowdOf [1, 3, 4], crowd.find? t.id = some t := by decide +kernel
  obtain ⟨⟨sorted, hsorted, hdispatches⟩, -⟩ :=
    dispatches_pass crew (0 : Float) hall (by decide +kernel)
  have hsame := (dispatches_pass crew (0 : Float) hsome (by decide +kernel)).2 (by decide +kernel)
  refine ⟨by decide +kernel, ⟨sorted, hsorted, hdispatches hfault⟩, hsame _ fun t => ?_⟩
  unfold crowdOf
  simp only [List.mem_filterMap, List.mem_cons, List.not_mem_nil, or_false]
  grind

end Dispatch

end SharedLink
