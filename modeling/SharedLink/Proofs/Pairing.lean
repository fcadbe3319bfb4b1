import SharedLink.Proofs.Rounds

/-!
# SharedLink.Proofs.Pairing

Which host a task gets, in exact arithmetic.

For every task a pass works out when each idle host would finish it.  All of these times
start from the same moment and share the length of the task, so of two hosts the faster one
always comes first: one order of the hosts serves all tasks, and the hosts go one after the
other as a stable sort by speed lists them.  With rounding this would not hold, as different
speeds can come to the same finish time.

* `sortBy_of_firstToFinish` — of a list of hosts the first to finish is the first of the fastest;
* `inTurn_eq_pairUp` — tasks that are bound in turn get the sorted hosts one by one;
* `pass_eq_entered` — so does a pass, whatever the lengths and the time;
* `pairs_pass` — which tasks and hosts these are.
-/

namespace SharedLink

/-- The value of a quantity is above zero. -/
def Quantity.IsPositive (q : Quantity) : Prop := ∃ r ∈ q.toRat?, 0 < r

instance : DecidablePred Quantity.IsPositive := fun q =>
  inferInstanceAs (Decidable (∃ r ∈ q.toRat?, 0 < r))

theorem Quantity.IsPositive.isNumber {q : Quantity} (h : q.IsPositive) : q.IsNumber := by
  obtain ⟨r, hr, -⟩ := h
  exact (place_of_toRat hr).1

namespace Dispatch

variable {now : Rat} {t : Task} {tasks : List Task} {idle : List (Host × Nat)}

/-! ## the order of the hosts -/

/-- A faster host comes first. -/
def faster (a b : Host × Nat) : Bool := b.1.speed.before a.1.speed

theorem strictWeakOn_faster : StrictWeakOn faster fun host => host.1.speed.IsNumber where
  asymm ha hb := Quantity.strictWeakOn_before.asymm hb ha
  trans ha hb hc hba hcb := Quantity.strictWeakOn_before.trans hc hb ha hcb hba

/-- The idle hosts by decreasing speed, with their places. -/
def bySpeed (hosts : List Host) : List (Host × Nat) := sortBy faster (idleHosts hosts)

/-- A task takes its length divided by the speed of its host. -/
theorem finishOn_eq {h : Host} {length speed : Rat} (ht : t.length.toRat? = some length)
    (hh : h.speed.toRat? = some speed) (hspeed : 0 < speed) :
    finishOn now t h = .ok (now + length / speed) := by
  have hquotient : Timescale.quotient? t.length h.speed = some (length / speed) := by
    have hne : speed ≠ 0 := ne_of_gt hspeed
    show (do let b ← h.speed.toRat?; if b = 0 then none else return (← t.length.toRat?) / b) = _
    rw [hh, ht]
    simp [hne]
  unfold finishOn timeOn
  rw [hquotient]
  rfl

/-- A task is finished at some time. -/
theorem exists_finishOn (now : Rat) (ht : t.length.IsPositive) {h : Host}
    (hh : h.speed.IsPositive) : ∃ finish, finishOn now t h = .ok finish := by
  obtain ⟨length, hlength, -⟩ := ht
  obtain ⟨speed, hspeed, hpos⟩ := hh
  exact ⟨_, finishOn_eq hlength hspeed hpos⟩

/-- Of two hosts the faster one finishes it earlier, if the task has a length. -/
theorem lt_iff_faster {g h : Host × Nat} {x y : Rat} (ht : t.length.IsPositive)
    (hg : g.1.speed.IsPositive) (hh : h.1.speed.IsPositive) (hx : finishOn now t g.1 = .ok x)
    (hy : finishOn now t h.1 = .ok y) : x < y ↔ faster g h = true := by
  obtain ⟨length, hlength, hpos⟩ := ht
  obtain ⟨speed, hspeed, hspeedpos⟩ := hg
  obtain ⟨speed', hspeed', hspeedpos'⟩ := hh
  rw [finishOn_eq hlength hspeed hspeedpos] at hx
  rw [finishOn_eq hlength hspeed' hspeedpos'] at hy
  unfold faster
  rw [← Except.ok.inj hx, ← Except.ok.inj hy, Quantity.before_iff_lt hspeed' hspeed,
    add_lt_add_iff_left, div_lt_div_iff_of_pos_left hpos hspeedpos hspeedpos']

/-- **The first host to finish is the first of the fastest**, so it heads the sorted list. -/
theorem sortBy_of_firstToFinish {chosen : Host × Nat} (ht : t.length.IsPositive)
    (hidle : ∀ host ∈ idle, host.1.speed.IsPositive) (hplaces : (idle.map (·.2)).Nodup)
    (h : FirstToFinish now t idle chosen) :
    sortBy faster idle = chosen :: sortBy faster (idle.filter (·.2 ≠ chosen.2)) := by
  obtain ⟨front, back, finish, rfl, hfinish, hfront, hback⟩ := h
  have hchosen := hidle chosen (List.mem_append_right _ List.mem_cons_self)
  rw [filter_place hplaces]
  refine sortBy_middle strictWeakOn_faster (fun host hhost => (hidle host hhost).isNumber)
    (fun other hother => ?_) fun other hother => ?_
  · obtain ⟨later, hlater, hnot⟩ := hfront other hother
    have hother := hidle other (List.mem_append_left _ hother)
    exact (lt_iff_faster ht hchosen hother hfinish hlater).mp (not_le.mp hnot)
  · obtain ⟨later, hlater, hnot⟩ := hback other hother
    have hother := hidle other (List.mem_append_right _ (List.mem_cons_of_mem _ hother))
    exact Bool.eq_false_iff.mpr fun hfaster =>
      hnot ((lt_iff_faster ht hother hchosen hlater hfinish).mpr hfaster)

/-! ## tasks and hosts one by one -/

/-- Tasks and hosts one by one, as long as there are both. -/
def pairUp (tasks : List Task) (hosts : List (Host × Nat)) : List Binding :=
  List.zipWith (fun t host => ⟨t.id, host.2, host.1.name⟩) tasks hosts

/-- With positive lengths and speeds there is a finish time for every task on every host. -/
theorem fault_inTurn (now : Rat) (htasks : ∀ t ∈ tasks, t.length.IsPositive)
    (hidle : ∀ host ∈ idle, host.1.speed.IsPositive) : (inTurn now tasks idle).2 = none := by
  induction tasks generalizing idle with
  | nil => rfl
  | cons t rest ih =>
      obtain ⟨ht, hrest⟩ := List.forall_mem_cons.mp htasks
      have htime (host : Host × Nat) (hhost : host ∈ idle) :
          ∃ time, (do return (now + (← timeOn Rat t host.1), host.1, host.2) : Except Fault _) =
            .ok time := by
        obtain ⟨finish, hfinish⟩ := exists_finishOn now ht (hidle host hhost)
        obtain ⟨length, hlength, -⟩ := bind_eq_ok_iff.mp hfinish
        exact ⟨_, bind_eq_ok_iff.mpr ⟨length, hlength, rfl⟩⟩
      obtain ⟨times, htimes⟩ := exists_mapM htime
      have htimes : finishTimes now t idle = .ok times := htimes
      rw [inTurn, htimes]
      dsimp only
      cases Selection.firstLeast (fun a b => decide (a < b)) times with
      | none => rfl
      | some best => exact ih hrest fun host hhost => hidle host (List.mem_of_mem_filter hhost)

/-- **Tasks that are bound in turn get the hosts one by one** by decreasing speed. -/
theorem inTurn_eq_pairUp (now : Rat) (htasks : ∀ t ∈ tasks, t.length.IsPositive)
    (hidle : ∀ host ∈ idle, host.1.speed.IsPositive) (hplaces : (idle.map (·.2)).Nodup) :
    inTurn now tasks idle = (pairUp tasks (sortBy faster idle), none) := by
  refine Prod.ext ?_ (fault_inTurn now htasks hidle)
  induction tasks generalizing idle with
  | nil => rfl
  | cons t rest ih =>
      obtain ⟨ht, hrest⟩ := List.forall_mem_cons.mp htasks
      rcases inTurn_cons (fault_inTurn now htasks hidle) with
        ⟨rfl, hnone⟩ | ⟨h, place, hfirst, -, hbound⟩
      · exact hnone
      · rw [hbound, ih hrest (fun host hhost => hidle host (List.mem_of_mem_filter hhost))
          (hplaces.sublist (List.filter_sublist.map _)),
          sortBy_of_firstToFinish ht hidle hplaces hfirst]
        rfl

/-- The hosts of tasks and hosts that are paired up are the first of the hosts. -/
theorem map_host_pairUp (tasks : List Task) (hosts : List (Host × Nat)) :
    (pairUp tasks hosts).map (fun b => (b.host, b.hostName)) =
      (hosts.take tasks.length).map fun host => (host.2, host.1.name) := by
  induction tasks generalizing hosts with
  | nil => rfl
  | cons t tasks ih =>
      cases hosts with
      | nil => rfl
      | cons host hosts =>
          unfold pairUp at ih ⊢
          rw [List.zipWith_cons_cons, List.map_cons, ih, List.length_cons, List.take_succ_cons,
            List.map_cons]

/-! ## other lengths -/

/-- A task with another length, which goes by its id. -/
def relength (length : Int → Quantity) (t : Task) : Task := { t with length := length t.id }

/-- Lengths do not matter to the order in which tasks are taken. -/
theorem picks_relength (length : Int → Quantity) (rounds : Nat) (tasks : List Task) :
    picks rounds (tasks.map (relength length)) = (picks rounds tasks).map (relength length) := by
  induction rounds generalizing tasks with
  | zero => rfl
  | succ rounds ih =>
      rw [picks, picks, Selection.firstLeastOn_map]
      have hrank : (fun t => (relength length t).rank) = (·.rank) := rfl
      rw [hrank]
      cases Selection.firstLeastOn Quantity.before (·.rank) tasks with
      | none => rfl
      | some t =>
          dsimp only [Option.map_some]
          rw [List.map_cons, ← ih, List.filter_map]
          rfl

/-! ## a whole pass in exact arithmetic -/

/-- The tasks of a list that are not bound, in the order in which a pass takes them. -/
def inOrder (ready : List Task) : List Task :=
  picks (ready.filter (!·.isBound)).length (ready.filter (!·.isBound))

theorem inOrder_relength (length : Int → Quantity) (ready : List Task) :
    inOrder (ready.map (relength length)) = (inOrder ready).map (relength length) := by
  have hfilter : (ready.map (relength length)).filter (!·.isBound) =
      (ready.filter (!·.isBound)).map (relength length) := by
    rw [List.filter_map]
    rfl
  unfold inOrder
  rw [hfilter, List.length_map, picks_relength]

/-- What is left when bindings are entered, and no fault is met. -/
def entered (w : Workflow) (hosts : List Host) (bindings : List Binding) : Dispatched :=
  ⟨(bindings.foldl enter (w, hosts)).1, (bindings.foldl enter (w, hosts)).2, bindings, none⟩

theorem mem_unbound {ready : List Task} : t ∈ unbound ready ↔ t ∈ ready ∧ t.isBound = false := by
  rw [unbound, List.mem_eraseDups, List.mem_filter, Bool.not_eq_true']

theorem isPositive_of_mem_idleHosts {hosts : List Host}
    (hspeeds : ∀ h ∈ hosts, h.isIdle = true → h.speed.IsPositive) {host : Host × Nat}
    (hhost : host ∈ idleHosts hosts) : host.1.speed.IsPositive := by
  obtain ⟨hplace, hidle⟩ := mem_idleHosts.mp hhost
  exact hspeeds host.1 (List.mem_of_getElem? hplace) hidle

/-- **A pass pairs up** the tasks in the order in which it takes them with the idle hosts by
decreasing speed. -/
theorem pass_eq_entered (w : Workflow) {hosts : List Host} {ready : List Task} (now : Rat)
    (hlengths : ∀ t ∈ unbound ready, t.length.IsPositive)
    (hspeeds : ∀ h ∈ hosts, h.isIdle = true → h.speed.IsPositive) :
    pass w hosts ready now = entered w hosts (pairUp (inOrder ready) (bySpeed hosts)) := by
  have htasks (t : Task) (ht : t ∈ inOrder ready) : t.length.IsPositive :=
    hlengths t (List.mem_eraseDups.mpr (mem_of_mem_picks ht))
  have hidle (host : Host × Nat) (hhost : host ∈ idleHosts hosts) : host.1.speed.IsPositive :=
    isPositive_of_mem_idleHosts hspeeds hhost
  exact pass_eq_of_assign w ((assign_eq_inTurn now _ _ _).trans
    (inTurn_eq_pairUp now htasks hidle (nodup_idleHosts hosts)))

/-- What a pass in exact arithmetic comes to: the distinct unbound tasks in the stable order of
their ranks are paired up with the idle hosts in the stable order of their speeds.  If there is NaN
among the ranks the tasks are not in order, but all there and each once, and the hosts are the
same. -/
structure Pairs (w : Workflow) (hosts : List Host) (ready : List Task) (result : Dispatched) :
    Prop where
  fastest : StablySorted faster (idleHosts hosts) (bySpeed hosts)
  taken : result.bindings.map (fun b => (b.host, b.hostName)) =
    ((bySpeed hosts).take (unbound ready).length).map fun host => (host.2, host.1.name)
  distinct : (inOrder ready).Perm (unbound ready)
  ranked : (∀ t ∈ unbound ready, t.rank.IsNumber) →
    StablySorted byRank (unbound ready) (inOrder ready) ∧
      inOrder ready = sortBy byRank (unbound ready)
  paired : result = entered w hosts (pairUp (inOrder ready) (bySpeed hosts))

/-- **The hosts go by their speeds**, whatever tasks compete for them: a pass in exact arithmetic
pairs up sorted tasks and sorted hosts, and it binds the same at any other time and with any other
lengths. -/
theorem pairs_pass {w : Workflow} {hosts : List Host} {ready : List Task} (now : Rat)
    (hready : ∀ t ∈ ready, w.find? t.id = some t)
    (hlengths : ∀ t ∈ unbound ready, t.length.IsPositive)
    (hspeeds : ∀ h ∈ hosts, h.isIdle = true → h.speed.IsPositive) :
    Pairs w hosts ready (pass w hosts ready now) ∧
    ∀ (w' : Workflow) (now' : Rat) (length : Int → Quantity),
      (∀ t ∈ unbound ready, (length t.id).IsPositive) →
      (pass w' hosts (ready.map (relength length)) now').bindings =
        (pass w hosts ready now).bindings := by
  have hids : ∀ s ∈ ready.filter (!·.isBound), ∀ t ∈ ready.filter (!·.isBound),
      s.id = t.id → s = t := fun _ hs _ ht =>
    eq_of_id hready (List.mem_of_mem_filter hs) (List.mem_of_mem_filter ht)
  have hperm : (inOrder ready).Perm (unbound ready) := perm_picks hids le_rfl
  have hpass := pass_eq_entered w now hlengths hspeeds
  refine ⟨⟨?_, ?_, hperm, fun hranks => ?_, hpass⟩, fun w' now' length hpositive => ?_⟩
  · exact stablySorted_sortBy strictWeakOn_faster fun host hhost =>
      (isPositive_of_mem_idleHosts hspeeds hhost).isNumber
  · rw [hpass, ← hperm.length_eq]
    exact map_host_pairUp (inOrder ready) (bySpeed hosts)
  · have hsorted : StablySorted byRank (unbound ready) (inOrder ready) :=
      stablySorted_picks hids (fun t ht => hranks t (List.mem_eraseDups.mpr ht)) le_rfl
    exact ⟨hsorted, hsorted.unique strictWeakOn_byRank hranks
      (stablySorted_sortBy strictWeakOn_byRank hranks)⟩
  · have hlengths' : ∀ t ∈ unbound (ready.map (relength length)), t.length.IsPositive := by
      intro t ht
      obtain ⟨hmem, hunbound⟩ := mem_unbound.mp ht
      obtain ⟨s, hs, rfl⟩ := List.mem_map.mp hmem
      exact hpositive s (mem_unbound.mpr ⟨hs, hunbound⟩)
    rw [hpass, pass_eq_entered w' now' hlengths' hspeeds, inOrder_relength]
    unfold entered pairUp
    rw [List.zipWith_map_left]
    rfl

/-- A crew with another host that is as fast as the brisk one. -/
def twins : List Host :=
  crew ++ [{ name := "quick", speed := .double 2, bandwidth := 16, cores := 1, state := .idle }]

/-- The task of the lowest rank gets the first of the two that are fastest, and the next one the
other; so it is at another time, too, when the task that comes last is the shortest. -/
theorem pairs_crowd :
    Pairs crowd twins (crowdOf [2, 1, 4, 3, 2])
      (pass crowd twins (crowdOf [2, 1, 4, 3, 2]) (0 : Rat)) ∧
    (pass crowd twins (crowdOf [2, 1, 4, 3, 2]) (0 : Rat)).bindings =
      [⟨3, 2, "brisk"⟩, ⟨2, 3, "quick"⟩, ⟨1, 1, "slow"⟩] ∧
    (pass crowd twins ((crowdOf [2, 1, 4, 3, 2]).map (relength fun id => .int (10 ^ id.toNat)))
      (1 / 3 : Rat)).bindings = [⟨3, 2, "brisk"⟩, ⟨2, 3, "quick"⟩, ⟨1, 1, "slow"⟩] := by
  have hready : ∀ t ∈ crowdOf [2, 1, 4, 3, 2], crowd.find? t.id = some t := by decide +kernel
  have hspeeds : ∀ h ∈ twins, h.isIdle = true → h.speed.IsPositive := by decide +kernel
  have hpairs := pairs_pass (0 : Rat) hready (by decide +kernel) hspeeds
  have hbindings : (pass crowd twins (crowdOf [2, 1, 4, 3, 2]) (0 : Rat)).bindings =
      [⟨3, 2, "brisk"⟩, ⟨2, 3, "quick"⟩, ⟨1, 1, "slow"⟩] := by decide +kernel
  exact ⟨hpairs.1, hbindings, (hpairs.2 crowd (1 / 3) _ (by decide +kernel)).trans hbindings⟩

end Dispatch

end SharedLink
