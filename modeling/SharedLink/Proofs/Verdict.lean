import SharedLink.Proofs.Entries
import SharedLink.Proofs.Progress

/-!
# SharedLink.Proofs.Verdict

When planning fails.

Planning fails only at its checks, of which the first that fails decides: the bound
on parent sets, the ends of all dependencies, the numbers of the hosts, the sign of
the padding, and the range of the costs.  Behind them nothing is looked up that is
not there, nothing is divided by zero, and no reservation stops before it starts,
for cyclic workflows, negative lengths, infinite times and NaN as well.

* `Workflow.Flaw` — an end of a dependency that dangles or is not mirrored;
* `Plan.Answers` — the outcome that the arguments call for;
* `Draft.Unfailing` — what cannot go wrong once a draft is started;
* `answers_of_build` — planning gives that outcome, and nothing goes wrong.
-/

namespace SharedLink

open Timescale

/-! ## flaws of workflows -/

namespace Workflow

/-- An end of a dependency that the check reports: a listed id that is no task, or a
task that does not list the other in turn. -/
inductive Flaw (w : Workflow) : Fault → Prop
  | unknownParent {t : Task} {parent : Int} (task : t ∈ w.tasks) (listed : parent ∈ t.parents)
      (unknown : w.find? parent = none) : Flaw w (.unknownParent t.id parent)
  | oneSidedParent {t p : Task} {parent : Int} (task : t ∈ w.tasks) (listed : parent ∈ t.parents)
      (known : w.find? parent = some p) (unlisted : t.id ∉ p.children) :
      Flaw w (.oneSidedParent t.id parent)
  | unknownChild {t : Task} {child : Int} (task : t ∈ w.tasks) (listed : child ∈ t.children)
      (unknown : w.find? child = none) : Flaw w (.unknownChild t.id child)
  | oneSidedChild {t c : Task} {child : Int} (task : t ∈ w.tasks) (listed : child ∈ t.children)
      (known : w.find? child = some c) (unlisted : t.id ∉ c.parents) :
      Flaw w (.oneSidedChild t.id child)

theorem flaw_of_checkParent {w : Workflow} {t : Task} {parent : Int} {fault : Fault}
    (ht : t ∈ w.tasks) (hparent : parent ∈ t.parents)
    (h : w.checkParent t parent = .error fault) : w.Flaw fault := by
  unfold checkParent at h
  split at h
  · next hnone =>
      rw [← Except.error.inj h]
      exact .unknownParent ht hparent hnone
  · next p hsome =>
      split at h
      · cases h
      · next hlisted =>
          rw [← Except.error.inj h]
          exact .oneSidedParent ht hparent hsome fun hmem =>
            hlisted (List.contains_iff_mem.mpr hmem)

theorem flaw_of_checkChild {w : Workflow} {t : Task} {child : Int} {fault : Fault}
    (ht : t ∈ w.tasks) (hchild : child ∈ t.children)
    (h : w.checkChild t child = .error fault) : w.Flaw fault := by
  unfold checkChild at h
  split at h
  · next hnone =>
      rw [← Except.error.inj h]
      exact .unknownChild ht hchild hnone
  · next c hsome =>
      split at h
      · cases h
      · next hlisted =>
          rw [← Except.error.inj h]
          exact .oneSidedChild ht hchild hsome fun hmem =>
            hlisted (List.contains_iff_mem.mpr hmem)

/-- What the check reports is a flaw. -/
theorem flaw_of_check {w : Workflow} {fault : Fault} (h : w.check = .error fault) :
    w.Flaw fault := by
  obtain ⟨t, ht, h⟩ := exists_error_of_forM h
  rcases bind_eq_error_iff.mp h with hparents | ⟨_, -, hchildren⟩
  · obtain ⟨parent, hparent, h⟩ := exists_error_of_forM hparents
    exact flaw_of_checkParent ht hparent h
  · obtain ⟨child, hchild, h⟩ := exists_error_of_forM hchildren
    exact flaw_of_checkChild ht hchild h

end Workflow

variable {τ : Type} [Timescale τ]

namespace Draft

/-- What cannot go wrong once a draft is started: divisions by the speed of a machine
and by the mean bandwidth, look-ups of known tasks and of their costs, and
reservations, in placing tasks as well as in trying them. -/
structure Unfailing (w : Workflow) (platform : Platform τ) (first : Draft τ) : Prop where
  /-- no speed is zero -/
  speeds : ∀ m ∈ platform.machines, ¬m.speed ≤ 0
  /-- nor is the mean bandwidth -/
  bandwidth : ¬platform.meanBandwidth ≤ 0
  /-- all paths can be found and priced -/
  paths : ∃ paths ranked, w.paths = .ok paths ∧ first.rankPaths paths = .ok ranked
  /-- both legs of a task can be reserved, on any timeline and after parents with any ends -/
  fits : ∀ d, Reaches w first d → ∀ id, w.contains id = true → ∀ endOf? line,
    ∃ slot line', d.fit w endOf? id line = .ok (slot, line')
  /-- tasks can be put in an order to be placed in -/
  arranges : ∀ d, Reaches w first d → ∀ bound parents, (∀ id ∈ parents, w.contains id = true) →
    ∃ order, d.arrange w bound parents = .ok order ∧ order.Perm parents
  /-- a task can be placed with its ancestors -/
  settles : ∀ d, Reaches w first d → ∀ id, w.contains id = true →
    ∃ d', settled w d id = .ok d' ∧ Reaches w first d'

/-- **No fault behind the checks**: a draft that is started goes through. -/
theorem Starts.unfailing [Arithmetic τ] {w : Workflow} {hosts : List Host} {platform : Platform τ}
    {padding : Quantity} {first : Draft τ} (h : Starts w platform padding first)
    (hrec : w.Reciprocal) (hplatform : Platform.ofHosts τ hosts = .ok platform) :
    Unfailing w platform first where
  speeds _ hm := Platform.speed_pos hplatform hm
  bandwidth := platform.meanBandwidth_pos
  paths := by
    obtain ⟨paths, hpaths⟩ := Workflow.exists_paths hrec
    obtain ⟨ranked, hranked, -⟩ := h.prepared.exists_rankPaths fun path hpath =>
      (Workflow.route_of_paths hrec hpaths hpath).contains
    exact ⟨paths, ranked, hpaths, hranked⟩
  fits _ hd _ hid := (hd.prepared h.prepared).exists_fit hid
  arranges _ hd bound _ hparents := (hd.prepared h.prepared).exists_arrange bound hparents
  settles _ hd _ hid := by
    obtain ⟨d', hd', -⟩ := (hd.prepared h.prepared).exists_settled hrec hid
    exact ⟨d', hd', hd.trans (reaches_settled hd').1⟩

/-- If the padding is a time and not negative, starting a draft is a matter of the costs. -/
theorem start_eq {w : Workflow} {platform : Platform τ} {padding : Quantity} {margin : τ}
    (hnonneg : padding.isNegative = false) (hpadding : ofQuantity? padding = some margin) :
    start w platform padding = do
      let costs ← w.tasks.mapM fun t => return (t.id, ← platform.cost t)
      return ⟨margin, costs, .empty, []⟩ := by
  unfold start
  rw [hnonneg, if_neg Bool.false_ne_true]
  refine bind_congr fun costs => ?_
  split
  · rw [hpadding]
    rfl
  · rw [timeOf_eq_ok_iff.mpr hpadding]
    rfl

/-- A draft can be started if all costs are in range. -/
theorem exists_start {w : Workflow} {platform : Platform τ} {padding : Quantity} {margin : τ}
    (hnonneg : padding.isNegative = false) (hpadding : ofQuantity? padding = some margin)
    (haffords : ∀ t ∈ w.tasks, platform.Affords t) :
    ∃ first, start w platform padding = .ok first := by
  have hcost (t : Task) (ht : t ∈ w.tasks) :
      ∃ entry, (do return (t.id, ← platform.cost t) : Except Fault _) = .ok entry := by
    obtain ⟨cost, hcost⟩ := Platform.exists_cost_iff.mpr (haffords t ht)
    exact ⟨(t.id, cost), bind_eq_ok_iff.mpr ⟨cost, hcost, rfl⟩⟩
  obtain ⟨costs, hcosts⟩ := exists_mapM hcost
  rw [start_eq hnonneg hpadding]
  exact ⟨_, bind_eq_ok_iff.mpr ⟨costs, hcosts, rfl⟩⟩

/-- A draft that is started knows the cost of every task. -/
theorem Starts.affords {w : Workflow} {platform : Platform τ} {padding : Quantity} {first : Draft τ}
    (h : Starts w platform padding first) : ∀ t ∈ w.tasks, platform.Affords t := by
  intro t ht
  obtain ⟨cost, -, hcost⟩ := h.cost_of_mem ht
  exact Platform.exists_cost_iff.mp ⟨cost, hcost⟩

/-- No draft can be started if a cost is not, and that is what is reported. -/
theorem eq_overflow_of_start {w : Workflow} {platform : Platform τ} {padding : Quantity}
    {margin : τ} {fault : Fault} (hnonneg : padding.isNegative = false)
    (hpadding : ofQuantity? padding = some margin) (h : start w platform padding = .error fault) :
    fault = .overflow := by
  rw [start_eq hnonneg hpadding] at h
  rcases bind_eq_error_iff.mp h with hcosts | ⟨costs, -, h⟩
  · obtain ⟨t, -, h⟩ := exists_error_of_mapM hcosts
    rcases bind_eq_error_iff.mp h with hcost | ⟨cost, -, h⟩
    · exact Platform.eq_overflow_of_cost hcost
    · cases h
  · cases h

end Draft

namespace Plan

/-- The outcome of planning: the fault of the first check that fails, and a plan if
none does. -/
structure Answers (w : Workflow) (hosts : List Host) (bound : Int) (padding : Quantity)
    (outcome : Except Fault (Plan τ)) : Prop where
  /-- a negative bound on parent sets is refused -/
  negativeBound : bound < 0 → outcome = .error (.negativeBound bound)
  /-- then a workflow with a flaw -/
  flawed : 0 ≤ bound → ¬w.Reciprocal →
    ∃ fault, w.Flaw fault ∧ w.check = .error fault ∧ outcome = .error fault
  /-- then a host that cannot be converted -/
  unconverted : 0 ≤ bound → w.Reciprocal → ¬(∀ h ∈ hosts, h.Converts τ) →
    ∃ fault, Platform.ofHosts τ hosts = .error fault ∧ outcome = .error fault
  /-- then a negative padding -/
  negativePadding : 0 ≤ bound → w.Reciprocal → (∀ h ∈ hosts, h.Converts τ) →
    padding.isNegative = true → outcome = .error (.negativePadding padding)
  /-- then a task whose cost is out of range -/
  unaffordable : 0 ≤ bound → w.Reciprocal → ∀ platform, Platform.ofHosts τ hosts = .ok platform →
    padding.isNegative = false → ¬(∀ t ∈ w.tasks, platform.Affords t) → outcome = .error .overflow
  /-- and in every other case there is a plan -/
  planned : 0 ≤ bound → w.Reciprocal → ∀ platform, Platform.ofHosts τ hosts = .ok platform →
    padding.isNegative = false → (∀ t ∈ w.tasks, platform.Affords t) → ∃ p, outcome = .ok p

variable {w : Workflow} {hosts : List Host} {bound : Int} {padding : Quantity}

/-- Behind the checks of the bound and of the workflow, planning is a matter of the hosts. -/
theorem build_of_reciprocal (hbound : 0 ≤ bound) (hrec : w.Reciprocal) :
    build τ w hosts bound padding = do
      let platform ← Platform.ofHosts τ hosts
      let d ← Draft.start w platform padding
      let d ← serve w bound d
      return ofDraft d ((w.tasks.filter fun t => !platform.isFeasible t).map (·.id)) := by
  unfold build
  rw [if_neg (Int.not_lt.mpr hbound), Workflow.check_eq_ok_iff.mpr hrec]
  rfl

/-- Behind that of the hosts, it is a matter of the draft that is started. -/
theorem build_of_ofHosts (hbound : 0 ≤ bound) (hrec : w.Reciprocal) {platform : Platform τ}
    (hplatform : Platform.ofHosts τ hosts = .ok platform) :
    build τ w hosts bound padding = do
      let d ← Draft.start w platform padding
      let d ← serve w bound d
      return ofDraft d ((w.tasks.filter fun t => !platform.isFeasible t).map (·.id)) := by
  rw [build_of_reciprocal hbound hrec, hplatform]
  rfl

/-- **The verdict on the arguments**: planning fails only at its checks, the first one first,
and gives a plan in every other case; once a draft is started, nothing goes wrong.  The padding
may be any double, NaN and the infinities included, or an integer in their range. -/
theorem answers_of_build [Arithmetic τ] (w : Workflow) (hosts : List Host) (bound : Int)
    {padding : Quantity} {margin : τ} (hpadding : ofQuantity? padding = some margin) :
    Answers w hosts bound padding (build τ w hosts bound padding) ∧
      ∀ platform first, w.Reciprocal → Platform.ofHosts τ hosts = .ok platform →
        Draft.start w platform padding = .ok first → Draft.Unfailing w platform first := by
  refine ⟨{
    negativeBound := ?negativeBound
    flawed := ?flawed
    unconverted := ?unconverted
    negativePadding := ?negativePadding
    unaffordable := ?unaffordable
    planned := ?planned }, ?unfailing⟩
  case negativeBound =>
      intro hbound
      unfold build
      rw [if_pos hbound]
      rfl
  case flawed =>
      intro hbound hflaw
      cases hcheck : w.check with
      | ok _ => exact absurd (Workflow.check_eq_ok_iff.mp hcheck) hflaw
      | error fault =>
          refine ⟨fault, Workflow.flaw_of_check hcheck, rfl, ?_⟩
          unfold build
          rw [if_neg (Int.not_lt.mpr hbound), hcheck]
          rfl
  case unconverted =>
      intro hbound hrec hhosts
      cases hplatform : Platform.ofHosts τ hosts with
      | ok platform => exact absurd (Platform.exists_ofHosts_iff.mp ⟨platform, hplatform⟩) hhosts
      | error fault =>
          refine ⟨fault, rfl, ?_⟩
          rw [build_of_reciprocal hbound hrec, hplatform]
          rfl
  case negativePadding =>
      intro hbound hrec hhosts hneg
      obtain ⟨platform, hplatform⟩ := Platform.exists_ofHosts_iff.mpr hhosts
      rw [build_of_ofHosts hbound hrec hplatform]
      unfold Draft.start
      rw [if_pos hneg]
      rfl
  case unaffordable =>
      intro hbound hrec platform hplatform hnonneg hcosts
      rw [build_of_ofHosts hbound hrec hplatform]
      cases hstart : Draft.start w platform padding with
      | ok first => exact absurd (Draft.starts_of_start hstart).affords hcosts
      | error fault => rw [Draft.eq_overflow_of_start hnonneg hpadding hstart]; rfl
  case planned =>
      intro hbound hrec platform hplatform hnonneg hcosts
      obtain ⟨first, hstart⟩ := Draft.exists_start hnonneg hpadding hcosts
      obtain ⟨last, hserve⟩ := exists_serve (Draft.starts_of_start hstart).prepared hrec bound
      rw [build_of_ofHosts hbound hrec hplatform]
      exact ⟨_, bind_eq_ok_iff.mpr ⟨first, hstart, bind_eq_ok_iff.mpr ⟨last, hserve, rfl⟩⟩⟩
  case unfailing =>
      intro platform first hrec hplatform hstart
      exact (Draft.starts_of_start hstart).unfailing hrec hplatform

/-- With a padding that is NaN, the workflow with a cycle is planned in doubles. -/
theorem answers_loop :
    ofQuantity? (.double Binary64.nan) = some Binary64.nan ∧
      ∃ p, build Float loop [loopHost] 3 (.double Binary64.nan) = .ok p := by
  have hpadding : ofQuantity? (.double Binary64.nan) = some Binary64.nan := rfl
  have hrec : loop.Reciprocal := Workflow.check_eq_ok_iff.mp (by decide)
  have hplatform : Platform.ofHosts Float [loopHost] = .ok ⟨[⟨1, 1⟩], [8]⟩ := by decide +kernel
  have hcosts : ∀ t ∈ loop.tasks, Platform.Affords ⟨[⟨(1 : Float), 1⟩], [8]⟩ t := by decide +kernel
  have hanswers := (answers_of_build loop [loopHost] 3 hpadding).1
  exact ⟨hpadding, hanswers.planned (by decide) hrec _ hplatform (by decide +kernel) hcosts⟩

end Plan

end SharedLink
