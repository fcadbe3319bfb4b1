import SharedLink.Proofs.Annotations

/-!
# SharedLink.Proofs.Teams

What the schedulers of one workflow do to it over all of their runs.

Any number of schedulers plan the same workflow, each with settings of its own.  They are
run in any order and as often as one likes, and the hosts may change in between.  The
first run that comes to a plan writes it; runs before it find nothing to write, and runs
after it find every task ranked, so that no other run changes anything.

* `Team.Runs` — what happens in a team, from first to last;
* `Team.AnnotatedOnce` — one run writes its plan, and all others leave everything as it is;
* `annotatedOnce_of_runs` — this holds of every team, at any time.
-/

namespace SharedLink

/-- A workflow and the schedulers that plan it. -/
structure Team (ι : Type) where
  workflow : Workflow
  schedulers : ι → Offline

/-- One run: whose it was, the hosts at that time, and what it came to. -/
structure Attempt (ι : Type) where
  scheduler : ι
  hosts : List Host
  result : Except Fault (Plan Float)

/-- A run that came to a plan. -/
def Attempt.succeeds {ι : Type} (a : Attempt ι) : Bool := a.result.isOk

namespace Team

variable {ι : Type}

/-- Nobody has run yet, and no task has a finite rank. -/
structure Fresh (settings : ι → Settings) (s : Team ι) : Prop where
  some_task : s.workflow.tasks ≠ []
  unranked : ∀ t ∈ s.workflow.tasks, t.rank.isFinite? = some false
  made : ∀ i, ∃ hosts, s.schedulers i = .make (.sharedLink (settings i)) hosts

/-- Neither the workflow nor what a scheduler knows has changed. -/
structure Unchanged (s s' : Team ι) : Prop where
  workflow : s'.workflow = s.workflow
  plan : ∀ i, (s'.schedulers i).plan = (s.schedulers i).plan
  priority : ∀ i, (s'.schedulers i).priority = (s.schedulers i).priority
  makespan : ∀ i, (s'.schedulers i).expectedMakespan = (s.schedulers i).expectedMakespan

/-- One scheduler has a plan and has written it; the others are as they were. -/
structure Annotated (p : Plan Float) (i : ι) (s s' : Team ι) : Prop where
  written : p.Written s.workflow s'.workflow
  plan : (s'.schedulers i).plan = some p
  complete : (s'.schedulers i).priority.Perm s.workflow.ids
  priority : ∀ (rank : Nat) id, (s'.schedulers i).priority[rank]? = some id →
    ∃ t, s'.workflow.find? id = some t ∧ t.rank = .int rank
  makespan : (s'.schedulers i).expectedMakespan = some p.makespan
  others : ∀ j, j ≠ i → s'.schedulers j = s.schedulers j

variable [DecidableEq ι]

/-- Run one of the schedulers, with the hosts as they are. -/
def runAt (s : Team ι) (i : ι) (hosts : List Host) : Offline.Outcome :=
  { s.schedulers i with hosts := hosts }.run s.workflow

/-- What that leaves behind. -/
def after (s : Team ι) (i : ι) (hosts : List Host) : Team ι where
  workflow := (s.runAt i hosts).workflow
  schedulers := Function.update s.schedulers i (s.runAt i hosts).scheduler

/-- Runs of any schedulers, one after the other. -/
inductive Runs (start : Team ι) : List (Attempt ι) → Team ι → Prop
  | nil : Runs start [] start
  | snoc {history : List (Attempt ι)} {s : Team ι} (before : Runs start history s) (i : ι)
      (hosts : List Host) :
      Runs start (history ++ [⟨i, hosts, (s.runAt i hosts).result⟩]) (s.after i hosts)

/-- A workflow is annotated once.  As long as no run has succeeded nothing is annotated, and the
next run succeeds just if planning does, and then annotates everything; once a run has
succeeded, every other fails and changes nothing. -/
structure AnnotatedOnce (settings : ι → Settings) (start : Team ι) (history : List (Attempt ι))
    (s : Team ι) : Prop where
  untouched : (∀ a ∈ history, a.succeeds = false) →
    s.workflow = start.workflow ∧ ∀ i, (s.schedulers i).plan = none
  first : (∀ a ∈ history, a.succeeds = false) → ∀ i hosts p, (s.runAt i hosts).result = .ok p ↔
    Plan.build Float start.workflow hosts (settings i).bound (settings i).padding = .ok p
  annotated : (∀ a ∈ history, a.succeeds = false) → ∀ i hosts p,
    (s.runAt i hosts).result = .ok p → Annotated p i s (s.after i hosts)
  later : (∃ a ∈ history, a.succeeds = true) → ∀ i hosts,
    (∃ fault, (s.runAt i hosts).result = .error fault) ∧ Unchanged s (s.after i hosts)
  once : (history.filter (·.succeeds)).length ≤ 1

/-! ## one run -/

variable {settings : ι → Settings} {start s : Team ι} {history : List (Attempt ι)} {i : ι}
  {hosts : List Host} {p : Plan Float}

/-- The scheduler that has run is as the run left it, the others are as they were. -/
theorem scheduler_after (j : ι) : ((s.after i hosts).schedulers j) =
    if j = i then (s.runAt i hosts).scheduler else s.schedulers j := by
  unfold after
  exact Function.update_apply s.schedulers i (s.runAt i hosts).scheduler j

/-- What every run keeps. -/
structure Kept (settings : ι → Settings) (start : Team ι) (history : List (Attempt ι))
    (s : Team ι) : Prop where
  method : ∀ i, (s.schedulers i).method = .sharedLink (settings i)
  waiting : (∀ a ∈ history, a.succeeds = false) →
    s.workflow = start.workflow ∧ ∀ i, (s.schedulers i).plan = none
  done : (∃ a ∈ history, a.succeeds = true) →
    s.workflow.tasks ≠ [] ∧ ∀ t ∈ s.workflow.tasks, t.isRanked ≠ .ok false
  once : (history.filter (·.succeeds)).length ≤ 1

/-- A run without a plan changes nothing. -/
theorem unchanged_of_idle
    (h : Offline.Idle { s.schedulers i with hosts := hosts } s.workflow (s.runAt i hosts)) :
    Unchanged s (s.after i hosts) := by
  have hplan (j : ι) : ((s.after i hosts).schedulers j).plan = (s.schedulers j).plan := by
    rw [scheduler_after]
    split
    · next heq =>
        rw [heq, h.plan]
    · rfl
  refine ⟨h.workflow, hplan, fun j => ?_, fun j => ?_⟩
  · unfold Offline.priority
    rw [hplan]
  · unfold Offline.expectedMakespan
    rw [hplan]

/-- No run changes how a scheduler plans. -/
theorem method_after (hmethod : (s.runAt i hosts).scheduler.method = (s.schedulers i).method)
    (j : ι) : ((s.after i hosts).schedulers j).method = (s.schedulers j).method := by
  rw [scheduler_after]
  split
  · next heq => rw [heq, hmethod]
  · rfl

theorem Kept.idle (h : Kept settings start history s)
    (hidle : Offline.Idle { s.schedulers i with hosts := hosts } s.workflow (s.runAt i hosts)) :
    Kept settings start (history ++ [⟨i, hosts, (s.runAt i hosts).result⟩]) (s.after i hosts) := by
  obtain ⟨fault, hfault⟩ := hidle.fails
  have hsame := unchanged_of_idle hidle
  have hfails : Attempt.succeeds (⟨i, hosts, (s.runAt i hosts).result⟩ : Attempt ι) = false := by
    unfold Attempt.succeeds
    rw [hfault]
    rfl
  constructor
  case method =>
    intro j
    rw [method_after hidle.method, h.method]
  case waiting =>
    intro hall
    obtain ⟨hworkflow, hplan⟩ := h.waiting fun a ha => hall a (List.mem_append_left _ ha)
    exact ⟨hsame.workflow.trans hworkflow, fun j => (hsame.plan j).trans (hplan j)⟩
  case done =>
    intro ⟨a, ha, hsucceeds⟩
    rw [hsame.workflow]
    cases List.mem_append.mp ha with
    | inl ha => exact h.done ⟨a, ha, hsucceeds⟩
    | inr ha =>
        rw [List.mem_singleton.mp ha, hfails] at hsucceeds
        cases hsucceeds
  case once =>
    rw [List.filter_append, List.filter_cons_of_neg (by simp [hfails]), List.filter_nil,
      List.append_nil]
    exact h.once

/-- A run that is the first to come to a plan leaves every task with a rank. -/
theorem Kept.annotates (h : Kept settings start history s)
    (hall : ∀ a ∈ history, a.succeeds = false) (hsome : s.workflow.tasks ≠ [])
    (hplan : Offline.Annotates { s.schedulers i with hosts := hosts } s.workflow p
      (s.runAt i hosts)) :
    Kept settings start (history ++ [⟨i, hosts, (s.runAt i hosts).result⟩]) (s.after i hosts) := by
  have hsucceeds :
      Attempt.succeeds (⟨i, hosts, (s.runAt i hosts).result⟩ : Attempt ι) = true := by
    unfold Attempt.succeeds
    rw [hplan.result]
    rfl
  constructor
  case method =>
    intro j
    rw [method_after hplan.method, h.method]
  case waiting =>
    intro hnone
    have hfails := hnone _ (List.mem_append_right history (List.mem_singleton_self _))
    rw [hsucceeds] at hfails
    cases hfails
  case done =>
    intro _
    refine ⟨fun hnil => hsome ?_, hplan.written.ranked⟩
    have hids := hplan.written.ids
    have hnil : (s.runAt i hosts).workflow.tasks = [] := hnil
    unfold Workflow.ids at hids
    rw [hnil, List.map_nil] at hids
    exact List.map_eq_nil_iff.mp hids.symm
  case once =>
    have hnone : history.filter (·.succeeds) = [] := by simpa [List.filter_eq_nil_iff] using hall
    rw [List.filter_append, hnone, List.nil_append]
    exact List.length_filter_le _ _

omit [DecidableEq ι] in
/-- As long as nothing has succeeded, the next run annotates the workflow if it can be planned. -/
theorem Kept.first (h : Kept settings start history s) (hfresh : Fresh settings start)
    (hall : ∀ a ∈ history, a.succeeds = false) (i : ι) (hosts : List Host) :
    (Offline.Idle { s.schedulers i with hosts := hosts } s.workflow (s.runAt i hosts) ∧
      ∀ p, Plan.build Float start.workflow hosts (settings i).bound (settings i).padding ≠ .ok p) ∨
    ∃ p, Plan.build Float start.workflow hosts (settings i).bound (settings i).padding = .ok p ∧
      Offline.Annotates { s.schedulers i with hosts := hosts } s.workflow p (s.runAt i hosts) := by
  have hworkflow : s.workflow = start.workflow := (h.waiting hall).1
  have hunranked : ∀ t ∈ s.workflow.tasks, t.isRanked = .ok false := by
    rw [hworkflow]
    exact fun t ht => Task.isRanked_eq_false_iff.mpr (hfresh.unranked t ht)
  have hrun := Offline.run_of_unranked (s := { s.schedulers i with hosts := hosts })
    (h.method i) hunranked
  rw [← hworkflow]
  exact hrun

omit [DecidableEq ι] in
/-- Once something has succeeded, the next run changes nothing. -/
theorem Kept.later (h : Kept settings start history s)
    (hdone : ∃ a ∈ history, a.succeeds = true) (i : ι) (hosts : List Host) :
    Offline.Idle { s.schedulers i with hosts := hosts } s.workflow (s.runAt i hosts) := by
  obtain ⟨hsome, hranked⟩ := h.done hdone
  exact Offline.run_of_ranked (s := { s.schedulers i with hosts := hosts }) (h.method i) hsome
    hranked

/-! ## all runs -/

omit [DecidableEq ι] in
/-- Either every run has failed so far, or one has not. -/
theorem failed_or_succeeded (history : List (Attempt ι)) :
    (∀ a ∈ history, a.succeeds = false) ∨ ∃ a ∈ history, a.succeeds = true := by
  by_cases h : ∃ a ∈ history, a.succeeds = true
  · exact .inr h
  · exact .inl fun a ha => Bool.eq_false_iff.mpr fun hsucceeds => h ⟨a, ha, hsucceeds⟩

/-- **One run** keeps what is kept. -/
theorem Kept.step (h : Kept settings start history s) (hfresh : Fresh settings start) (i : ι)
    (hosts : List Host) :
    Kept settings start (history ++ [⟨i, hosts, (s.runAt i hosts).result⟩]) (s.after i hosts) := by
  cases failed_or_succeeded history with
  | inr hdone => exact h.idle (h.later hdone i hosts)
  | inl hall =>
      cases h.first hfresh hall i hosts with
      | inl hidle => exact h.idle hidle.1
      | inr hplan =>
          obtain ⟨p, -, hplan⟩ := hplan
          refine h.annotates hall ?_ hplan
          rw [(h.waiting hall).1]
          exact hfresh.some_task

theorem kept_of_runs (hfresh : Fresh settings start) (hruns : Runs start history s) :
    Kept settings start history s := by
  induction hruns with
  | nil =>
      constructor
      case method =>
        intro i
        obtain ⟨hosts, hmade⟩ := hfresh.made i
        rw [hmade]
        rfl
      case waiting =>
        refine fun _ => ⟨rfl, fun i => ?_⟩
        obtain ⟨hosts, hmade⟩ := hfresh.made i
        rw [hmade]
        rfl
      case done => exact fun ⟨a, ha, _⟩ => absurd ha List.not_mem_nil
      case once => exact Nat.zero_le 1
  | snoc before i hosts ih => exact ih.step hfresh i hosts

/-- What has been annotated, and by whom. -/
theorem annotated_of_annotates {bound : Int} {padding : Quantity}
    (hbuild : Plan.build Float s.workflow hosts bound padding = .ok p)
    (hplan : Offline.Annotates { s.schedulers i with hosts := hosts } s.workflow p
      (s.runAt i hosts)) : Annotated p i s (s.after i hosts) := by
  obtain ⟨platform, first, last, hplanned⟩ := Plan.planned_of_build hbuild
  have hown : ((s.after i hosts).schedulers i).plan = some p := by
    rw [scheduler_after, if_pos rfl, hplan.plan]
  have hpriority : ((s.after i hosts).schedulers i).priority = p.priority := by
    unfold Offline.priority
    rw [hown]
    rfl
  constructor
  case written => exact hplan.written
  case plan => exact hown
  case complete =>
    rw [hpriority]
    exact hplanned.perm_priority
  case priority =>
    rw [hpriority]
    exact hplan.written.priority
  case makespan =>
    unfold Offline.expectedMakespan
    rw [hown]
    rfl
  case others =>
    intro j hj
    rw [scheduler_after, if_neg hj]

/-- **Annotating once**: from new schedulers for a workflow without ranks on, whoever is run
and however often, the first plan is written and nothing else ever is. -/
theorem annotatedOnce_of_runs (hfresh : Fresh settings start) (hruns : Runs start history s) :
    AnnotatedOnce settings start history s := by
  have h := kept_of_runs hfresh hruns
  constructor
  case untouched => exact h.waiting
  case first =>
    intro hall i hosts p
    cases h.first hfresh hall i hosts with
    | inl hidle =>
        obtain ⟨fault, hfault⟩ := hidle.1.fails
        rw [hfault]
        refine ⟨fun hp => ?_, fun hp => absurd hp (hidle.2 p)⟩
        cases hp
    | inr hplan =>
        obtain ⟨q, hbuild, hplan⟩ := hplan
        rw [hbuild, hplan.result]
  case annotated =>
    intro hall i hosts p hresult
    cases h.first hfresh hall i hosts with
    | inl hidle =>
        obtain ⟨fault, hfault⟩ := hidle.1.fails
        rw [hfault] at hresult
        cases hresult
    | inr hplan =>
        obtain ⟨q, hbuild, hplan⟩ := hplan
        obtain rfl : q = p := Except.ok.inj (hplan.result.symm.trans hresult)
        rw [← (h.waiting hall).1] at hbuild
        exact annotated_of_annotates hbuild hplan
  case later =>
    intro hdone i hosts
    have hidle := h.later hdone i hosts
    exact ⟨hidle.fails, unchanged_of_idle hidle⟩
  case once => exact h.once

/-- Two schedulers for `Plan.loop`; the bound of the first one is negative. -/
def loopSettings (careful : Bool) : Settings := ⟨if careful then 3 else -1, 1⟩

def loopTeam : Team Bool where
  workflow := Plan.loop
  schedulers careful := .make (.sharedLink (loopSettings careful)) [Plan.loopHost]

/-- The first scheduler fails, the second one annotates the workflow, and then nobody does. -/
theorem annotatedOnce_loop : ∃ history s, Fresh loopSettings loopTeam ∧
    Runs loopTeam history s ∧ history.map (·.succeeds) = [false, true, false] ∧
      s.workflow.tasks.map (·.rank) = [.int 0, .int 2, .int 1] ∧
      AnnotatedOnce loopSettings loopTeam history s := by
  have hfresh : Fresh loopSettings loopTeam := by
    refine ⟨by decide, by decide +kernel, fun i => ⟨_, rfl⟩⟩
  have hnil : Runs loopTeam [] loopTeam := .nil
  have hruns := ((hnil.snoc false [Plan.loopHost]).snoc true [Plan.loopHost]).snoc true
    [Plan.loopHost]
  exact ⟨_, _, hfresh, hruns, by decide +kernel, by decide +kernel,
    annotatedOnce_of_runs hfresh hruns⟩

end Team

end SharedLink
