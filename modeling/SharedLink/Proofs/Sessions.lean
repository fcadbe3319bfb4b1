import SharedLink.Proofs.Passes
import SharedLink.Scheduler.Online

/-!
# SharedLink.Proofs.Sessions

What a scheduler does over all of its runs.

A session takes runs and releases in any order, with any ready lists, and lets
everything else about the workflow and the hosts change in between, as long as nobody
else binds tasks or hosts.  Taken apart into single moves, a session binds unbound
tasks to idle hosts and releases hosts, one at a time; `Tracked` is what every move
keeps, and a run is as many moves as it makes bindings.

* `Session.Runs` — what happens in a session, from first to last;
* `Session.Orderly` — nothing is lost, repeated or overlapped in it;
* `orderly_of_runs` — every session is orderly.
-/

namespace SharedLink

/-- An element of a list with one more is that one, or one of the others. -/
theorem snoc_eq_append_cons {α : Type} {l xs ys : List α} {m n : α} :
    l ++ [m] = xs ++ n :: ys ↔
      (ys = [] ∧ l = xs ∧ m = n) ∨ ∃ zs, ys = zs ++ [m] ∧ l = xs ++ n :: zs := by
  constructor
  · intro h
    cases List.eq_nil_or_concat ys with
    | inl hnil =>
        rw [hnil] at h
        obtain ⟨hl, hm⟩ := List.append_inj' h rfl
        exact .inl ⟨hnil, hl, List.head_eq_of_cons_eq hm⟩
    | inr hsnoc =>
        obtain ⟨zs, k, rfl⟩ := hsnoc
        have hassoc : xs ++ n :: zs.concat k = (xs ++ n :: zs) ++ [k] := by simp
        rw [hassoc] at h
        obtain ⟨hl, hm⟩ := List.append_inj' h rfl
        refine .inr ⟨zs, ?_, hl⟩
        rw [List.head_eq_of_cons_eq hm, List.concat_eq_append]
  · intro h
    cases h with
    | inl h =>
        obtain ⟨rfl, rfl, rfl⟩ := h
        rfl
    | inr h =>
        obtain ⟨zs, rfl, rfl⟩ := h
        simp

/-- A host gets a task, or is released. -/
inductive Move where
  | bound (b : Binding)
  | released (place : Nat)
deriving DecidableEq, Repr

namespace Move

/-- The binding that a move makes. -/
def binding? : Move → Option Binding
  | bound b => some b
  | released _ => none

/-- The bindings among some moves. -/
def bindings (moves : List Move) : List Binding := moves.filterMap binding?

/-- After some moves a host has been bound and not released since; or nothing has
released it, and it was engaged before. -/
def Engaged (before : Prop) (place : Nat) (moves : List Move) : Prop :=
  (∃ xs b ys, moves = xs ++ bound b :: ys ∧ b.host = place ∧ released place ∉ ys) ∨
    (before ∧ released place ∉ moves)

/-! ## one more move -/

theorem engaged_nil {before : Prop} {place : Nat} : Engaged before place [] ↔ before := by
  unfold Engaged
  constructor
  · intro h
    cases h with
    | inl h =>
        obtain ⟨xs, b, ys, heq, -⟩ := h
        simp at heq
    | inr h => exact h.1
  · intro h
    exact .inr ⟨h, List.not_mem_nil⟩

/-- A binding engages its host and no other. -/
theorem engaged_bound {before : Prop} {place : Nat} {moves : List Move} {b : Binding} :
    Engaged before place (moves ++ [bound b]) ↔ b.host = place ∨ Engaged before place moves := by
  unfold Engaged
  constructor
  · intro h
    cases h with
    | inl h =>
        obtain ⟨xs, c, ys, heq, hhost, hys⟩ := h
        cases snoc_eq_append_cons.mp heq with
        | inl h =>
            obtain ⟨-, -, hbc⟩ := h
            rw [bound.inj hbc]
            exact .inl hhost
        | inr h =>
            obtain ⟨zs, rfl, hmoves⟩ := h
            exact .inr (.inl ⟨xs, c, zs, hmoves, hhost, fun hz => hys (List.mem_append_left _ hz)⟩)
    | inr h => exact .inr (.inr ⟨h.1, fun hm => h.2 (List.mem_append_left _ hm)⟩)
  · intro h
    cases h with
    | inl hhost => exact .inl ⟨moves, b, [], rfl, hhost, List.not_mem_nil⟩
    | inr h =>
        cases h with
        | inl h =>
            obtain ⟨xs, c, ys, rfl, hhost, hys⟩ := h
            exact .inl ⟨xs, c, ys ++ [bound b], by simp, hhost, by simpa using hys⟩
        | inr h => exact .inr ⟨h.1, by simpa using h.2⟩

/-- A release frees its host and no other. -/
theorem engaged_released {before : Prop} {place other : Nat} {moves : List Move} :
    Engaged before place (moves ++ [released other]) ↔
      other ≠ place ∧ Engaged before place moves := by
  unfold Engaged
  constructor
  · intro h
    cases h with
    | inl h =>
        obtain ⟨xs, c, ys, heq, hhost, hys⟩ := h
        cases snoc_eq_append_cons.mp heq with
        | inl h => cases h.2.2
        | inr h =>
            obtain ⟨zs, rfl, hmoves⟩ := h
            simp only [List.mem_append, List.mem_singleton, not_or, released.injEq] at hys
            exact ⟨fun heq => hys.2 heq.symm, .inl ⟨xs, c, zs, hmoves, hhost, hys.1⟩⟩
    | inr h =>
        obtain ⟨hbefore, hm⟩ := h
        simp only [List.mem_append, List.mem_singleton, not_or, released.injEq] at hm
        exact ⟨fun heq => hm.2 heq.symm, .inr ⟨hbefore, hm.1⟩⟩
  · intro ⟨hne, h⟩
    have hlast : released place ∉ [released other] := by
      rw [List.mem_singleton, released.injEq]
      exact fun heq => hne heq.symm
    cases h with
    | inl h =>
        obtain ⟨xs, c, ys, rfl, hhost, hys⟩ := h
        refine .inl ⟨xs, c, ys ++ [released other], by simp, hhost, fun hm => ?_⟩
        exact (List.mem_append.mp hm).elim hys hlast
    | inr h => exact .inr ⟨h.1, fun hm => (List.mem_append.mp hm).elim h.2 hlast⟩

@[simp] theorem bindings_append (xs ys : List Move) :
    bindings (xs ++ ys) = bindings xs ++ bindings ys := List.filterMap_append

@[simp] theorem bindings_bound (bs : List Binding) : bindings (bs.map bound) = bs := by
  unfold bindings
  rw [List.filterMap_map]
  exact List.filterMap_some

@[simp] theorem bindings_released (place : Nat) : bindings [released place] = [] := rfl

end Move

/-! ## what moves keep -/

open Dispatch

/-- What some moves have come to, from a workflow and hosts that they began with: no
task is bound twice or over another binding, tasks keep the hosts that they are bound
to, and a host is busy just if it is engaged, so that it is released in between. -/
structure Tracked (w₀ : Workflow) (hosts₀ : List Host) (moves : List Move) (w : Workflow)
    (hosts : List Host) : Prop where
  once : ((Move.bindings moves).map (·.task)).Nodup
  fresh : ∀ b ∈ Move.bindings moves, w₀.hostOf b.task = none
  kept : ∀ b ∈ Move.bindings moves, w.hostOf b.task = some b.hostName
  untouched : ∀ id, id ∉ (Move.bindings moves).map (·.task) → w.hostOf id = w₀.hostOf id
  between : ∀ xs b ys c zs, moves = (xs ++ .bound b :: ys) ++ .bound c :: zs → b.host = c.host →
    .released b.host ∈ ys
  known : hosts₀.length ≤ hosts.length
  busy : ∀ place < hosts₀.length, stateOf hosts place = some .busy ↔
    Move.Engaged (stateOf hosts₀ place = some .busy) place moves

namespace Tracked

variable {w₀ w : Workflow} {hosts₀ hosts : List Host} {moves : List Move}

theorem nil (w : Workflow) (hosts : List Host) : Tracked w hosts [] w hosts where
  once := .nil
  fresh _ h := absurd h List.not_mem_nil
  kept _ h := absurd h List.not_mem_nil
  untouched _ _ := rfl
  between xs b ys c zs h := by simp at h
  known := Nat.le_refl _
  busy _ _ := Move.engaged_nil.symm

/-- **Binding**: entering an open binding to a known host, which is idle and so has been released
since it was bound before. -/
theorem enter (h : Tracked w₀ hosts₀ moves w hosts) {b : Binding} (hb : Open w hosts b)
    (hknown : b.host < hosts₀.length) :
    Tracked w₀ hosts₀ (moves ++ [.bound b]) (enter (w, hosts) b).1 (enter (w, hosts) b).2 := by
  have hbindings : Move.bindings (moves ++ [.bound b]) = Move.bindings moves ++ [b] := by
    rw [Move.bindings_append]
    rfl
  have hnew : b.task ∉ (Move.bindings moves).map (·.task) := by
    intro hmem
    obtain ⟨c, hc, htask⟩ := List.mem_map.mp hmem
    have hkept := h.kept c hc
    rw [htask, hb.unbound] at hkept
    cases hkept
  constructor
  case once =>
    rw [hbindings, List.map_append, List.nodup_append]
    refine ⟨h.once, List.pairwise_singleton _ _, fun id hid last hlast heq => ?_⟩
    rw [heq, List.mem_singleton.mp hlast] at hid
    exact hnew hid
  case fresh =>
    intro c hc
    rw [hbindings] at hc
    cases List.mem_append.mp hc with
    | inl hold => exact h.fresh c hold
    | inr hlast =>
        rw [List.mem_singleton.mp hlast, ← h.untouched b.task hnew]
        exact hb.unbound
  case kept =>
    intro c hc
    rw [hbindings] at hc
    unfold Dispatch.enter
    rw [hostOf_setHost hb.task]
    cases List.mem_append.mp hc with
    | inl hold =>
        have hne : c.task ≠ b.task := fun heq => hnew (List.mem_map.mpr ⟨c, hold, heq⟩)
        rw [if_neg hne]
        exact h.kept c hold
    | inr hlast => rw [List.mem_singleton.mp hlast, if_pos rfl]
  case untouched =>
    intro id hid
    rw [hbindings, List.map_append, List.mem_append, not_or] at hid
    have hne : id ≠ b.task := fun heq => hid.2 (List.mem_singleton.mpr heq)
    unfold Dispatch.enter
    rw [hostOf_setHost hb.task, if_neg hne]
    exact h.untouched id hid.1
  case between =>
    intro xs c ys d zs heq hhost
    cases snoc_eq_append_cons.mp heq with
    | inl hlast =>
        obtain ⟨-, hmoves, hbd⟩ := hlast
        rw [← Move.bound.inj hbd] at hhost
        by_contra hys
        have hbusy := (h.busy b.host hknown).mpr (.inl ⟨xs, c, ys, hmoves, hhost, hhost ▸ hys⟩)
        rw [hb.idle] at hbusy
        cases hbusy
    | inr hold =>
        obtain ⟨zs, -, hmoves⟩ := hold
        exact h.between xs c ys d zs hmoves hhost
  case known =>
    unfold Dispatch.enter
    rw [List.length_modify]
    exact h.known
  case busy =>
    intro place hplace
    unfold Dispatch.enter
    rw [stateOf_modify _ _ _ .busy fun _ => rfl, Move.engaged_bound, ← h.busy place hplace]
    by_cases hhost : b.host = place
    · rw [if_pos hhost, ← hhost, hb.idle]
      simp
    · rw [if_neg hhost]
      simp [hhost]

/-- **Release** of a host. -/
theorem release (h : Tracked w₀ hosts₀ moves w hosts) (place : Nat) :
    Tracked w₀ hosts₀ (moves ++ [.released place]) w (Online.release hosts place) := by
  have hbindings : Move.bindings (moves ++ [.released place]) = Move.bindings moves := by simp
  constructor
  case once => rw [hbindings]; exact h.once
  case fresh => rw [hbindings]; exact h.fresh
  case kept => rw [hbindings]; exact h.kept
  case untouched => rw [hbindings]; exact h.untouched
  case between =>
    intro xs b ys c zs heq hhost
    cases snoc_eq_append_cons.mp heq with
    | inl hlast => cases hlast.2.2
    | inr hold =>
        obtain ⟨zs, -, hmoves⟩ := hold
        exact h.between xs b ys c zs hmoves hhost
  case known =>
    unfold Online.release
    rw [List.length_modify]
    exact h.known
  case busy =>
    intro other hother
    unfold Online.release
    rw [stateOf_modify _ _ _ .idle fun _ => rfl, Move.engaged_released, ← h.busy other hother]
    by_cases heq : place = other
    · rw [if_pos heq]
      cases stateOf hosts other <;> simp [heq]
    · rw [if_neg heq]
      simp [heq]

/-- **Other changes** bind no task, release no host, and keep the places of hosts. -/
theorem change (h : Tracked w₀ hosts₀ moves w hosts) {w' : Workflow} {hosts' : List Host}
    (hbound : ∀ id, w'.hostOf id = w.hostOf id)
    (hstates : hosts.map (·.state) <+: hosts'.map (·.state)) :
    Tracked w₀ hosts₀ moves w' hosts' where
  once := h.once
  fresh := h.fresh
  kept b hb := (hbound b.task).trans (h.kept b hb)
  untouched id hid := (hbound id).trans (h.untouched id hid)
  between := h.between
  known := by
    have hlength := hstates.length_le
    rw [List.length_map, List.length_map] at hlength
    exact Nat.le_trans h.known hlength
  busy place hplace := by
    have hlt : place < (hosts.map (·.state)).length := by
      rw [List.length_map]
      exact Nat.lt_of_lt_of_le hplace h.known
    have hstate : stateOf hosts' place = stateOf hosts place := by
      obtain ⟨rest, hrest⟩ := hstates
      unfold stateOf
      rw [← List.getElem?_map, ← List.getElem?_map, ← hrest, List.getElem?_append_left hlt]
    rw [hstate]
    exact h.busy place hplace

/-- **A pass** is as many moves as it makes bindings. -/
theorem enterAll {bs : List Binding} (h : Tracked w₀ hosts₀ moves w hosts)
    (hopen : AllOpen w hosts bs) (hknown : ∀ b ∈ bs, b.host < hosts₀.length) :
    Tracked w₀ hosts₀ (moves ++ bs.map .bound) (bs.foldl Dispatch.enter (w, hosts)).1
      (bs.foldl Dispatch.enter (w, hosts)).2 := by
  induction bs generalizing moves w hosts with
  | nil => simpa using h
  | cons b rest ih =>
      obtain ⟨hb, hrest⟩ := List.forall_mem_cons.mp hknown
      have hfirst := h.enter (hopen.isOpen b List.mem_cons_self) hb
      have hall := ih hfirst hopen.enter hrest
      rw [List.map_cons, List.foldl_cons]
      rwa [List.append_assoc, List.singleton_append] at hall

end Tracked

/-! ## sessions -/

/-- A scheduler with the workflow and the hosts that it works on. -/
structure Session where
  scheduler : Online
  workflow : Workflow
  hosts : List Host

/-- What happens in a session: a run makes bindings and writes records, a host is
released, or something else changes. -/
inductive Happening where
  | ran (bindings : List Binding) (records : List Record)
  | released (place : Nat)
  | changed
deriving DecidableEq, Repr

namespace Happening

/-- The moves of what happens, in their order. -/
def moves : Happening → List Move
  | ran bindings _ => bindings.map .bound
  | released place => [.released place]
  | changed => []

/-- What is written. -/
def records : Happening → List Record
  | ran _ records => records
  | _ => []

/-- Whether there has been a run. -/
def isRun : Happening → Bool
  | ran _ _ => true
  | _ => false

end Happening

namespace Session

/-- One thing happens.  A run takes any ready tasks of the workflow, at any time, and
ends without a fault.  Besides, the workflow and the hosts may change in any way that
binds and unbinds no task and keeps the states of the hosts. -/
inductive Step : Session → Happening → Session → Prop
  | run {s : Session} {ready : List Int} {tasks : List Task} {now : Float} {o : Online.Outcome}
      (found : ready.mapM s.workflow.find? = some tasks)
      (outcome : s.scheduler.run s.workflow s.hosts tasks now = o)
      (passed : o.dispatched.fault = none) :
      Step s (.ran o.dispatched.bindings o.records)
        ⟨o.scheduler, o.dispatched.workflow, o.dispatched.hosts⟩
  | release {s : Session} (place : Nat) :
      Step s (.released place) { s with hosts := Online.release s.hosts place }
  | change {s : Session} {w : Workflow} {hosts : List Host}
      (bound : ∀ id, w.hostOf id = s.workflow.hostOf id)
      (states : s.hosts.map (·.state) <+: hosts.map (·.state)) :
      Step s .changed { s with workflow := w, hosts := hosts }

/-- Things happen one after the other. -/
inductive Runs (start : Session) : List Happening → Session → Prop
  | nil : Runs start [] start
  | snoc {history : List Happening} {s s' : Session} {happening : Happening}
      (before : Runs start history s) (last : Step s happening s') :
      Runs start (history ++ [happening]) s'

end Session

/-! ## one run -/

namespace Online

/-- What a run without a fault does: it enters open bindings to known hosts, counts
them, and writes one line for each behind the warning of the first run. -/
structure Ran (s : Online) (w : Workflow) (hosts : List Host) (now : Float) (o : Outcome) :
    Prop where
  allOpen : AllOpen w hosts o.dispatched.bindings
  known : ∀ b ∈ o.dispatched.bindings, b.host < s.known
  entered : (o.dispatched.workflow, o.dispatched.hosts) =
    o.dispatched.bindings.foldl enter (w, hosts)
  scheduler : o.scheduler = ⟨s.known, true, s.count + o.dispatched.bindings.length⟩
  records : ∃ warning, s.prepare w = .ok warning ∧
    o.records = warning ++ bindingRecords w now o.dispatched.bindings

theorem ran_of_run {s : Online} {w : Workflow} {hosts : List Host} {tasks : List Task}
    {now : Float} {o : Outcome} (htasks : ∀ t ∈ tasks, w.find? t.id = some t)
    (h : s.run w hosts tasks now = o) (hpassed : o.dispatched.fault = none) :
    s.Ran w hosts now o := by
  rw [← h] at hpassed ⊢
  unfold run at hpassed ⊢
  cases hprepare : s.prepare w with
  | error fault =>
      rw [hprepare] at hpassed
      cases hpassed
  | ok warning =>
      rw [hprepare] at hpassed
      dsimp only at hpassed ⊢
      cases hfault : (pass w (hosts.take s.known) tasks now).fault with
      | some fault =>
          rw [hfault] at hpassed
          cases hpassed
      | none =>
          have hopen : AllOpen w (hosts.take s.known)
              (pass w (hosts.take s.known) tasks now).bindings := allOpen_pass htasks now
          have hlt (b : Binding) (hb : b ∈ (pass w (hosts.take s.known) tasks now).bindings) :
              b.host < (hosts.take s.known).length := lt_of_stateOf (hopen.isOpen b hb).idle
          constructor
          case allOpen =>
            have hall := hopen.append (hosts.drop s.known)
            rw [List.take_append_drop] at hall
            exact hall
          case known => exact fun b hb => Nat.lt_of_lt_of_le (hlt b hb) (List.length_take_le _ _)
          case entered =>
            have happend := foldl_enter_append (w := w) hlt (hosts.drop s.known)
            rw [List.take_append_drop, ← entered_pass] at happend
            exact happend.symm
          case scheduler => rfl
          case records => exact ⟨warning, hprepare, rfl⟩

/-- Before anything is bound there is one warning at most, and only in the first run. -/
theorem length_prepare {s : Online} {w : Workflow} {warning : List Record}
    (h : s.prepare w = .ok warning) :
    warning.length ≤ 1 ∧ (s.prepared = true → warning = []) := by
  unfold prepare at h
  cases hprepared : s.prepared with
  | true =>
      rw [hprepared, if_pos rfl] at h
      rw [← Except.ok.inj h]
      exact ⟨Nat.zero_le 1, fun _ => rfl⟩
  | false =>
      rw [hprepared, if_neg Bool.false_ne_true] at h
      unfold unrankedWarning at h
      obtain ⟨tasks, -, h⟩ := bind_eq_ok_iff.mp h
      refine ⟨?_, fun h => by cases h⟩
      dsimp only at h
      split at h
      · rw [← Except.ok.inj h]
        exact Nat.zero_le 1
      · rw [← Except.ok.inj h]
        exact Nat.le_refl 1

/-- The lines about bindings are no warnings. -/
theorem filter_bindingRecords (w : Workflow) (now : Float) (bindings : List Binding) :
    (bindingRecords w now bindings).filter (·.level = .warning) = [] := by
  rw [List.filter_eq_nil_iff]
  intro record hrecord
  obtain ⟨b, -, rfl⟩ := List.mem_map.mp hrecord
  simp

end Online

/-! ## whole sessions -/

namespace Happening

/-- All moves of what happened. -/
def allMoves (history : List Happening) : List Move := history.flatMap moves

/-- All warnings that were written. -/
def warnings (history : List Happening) : List Record :=
  (history.flatMap records).filter (·.level = .warning)

theorem allMoves_snoc (history : List Happening) (h : Happening) :
    allMoves (history ++ [h]) = allMoves history ++ h.moves := by
  unfold allMoves
  rw [List.flatMap_append, List.flatMap_singleton]

theorem warnings_snoc (history : List Happening) (h : Happening) :
    warnings (history ++ [h]) = warnings history ++ h.records.filter (·.level = .warning) := by
  unfold warnings
  rw [List.flatMap_append, List.flatMap_singleton, List.filter_append]

/-- Nothing is written without a run. -/
theorem records_eq_nil {e : Happening} (h : e.isRun = false) : e.records = [] := by
  cases e with
  | ran bindings records => cases h
  | released place => rfl
  | changed => rfl

/-- Nothing is bound without a run. -/
theorem bindings_moves_eq_nil {e : Happening} (h : e.isRun = false) :
    Move.bindings e.moves = [] := by
  cases e with
  | ran bindings records => cases h
  | released place => rfl
  | changed => rfl

theorem warnings_eq_nil {history : List Happening} (h : ∀ e ∈ history, e.isRun = false) :
    warnings history = [] := by
  have hnone : history.flatMap records = [] := by
    rw [List.flatMap_eq_nil_iff]
    exact fun e he => records_eq_nil (h e he)
  unfold warnings
  rw [hnone]
  rfl

end Happening

namespace Session

open Happening

/-- A warning is only written by the first run. -/
def WarnsFirst (history : List Happening) : Prop :=
  ∀ xs bindings records ys, history = xs ++ .ran bindings records :: ys →
    (∃ record ∈ records, record.level = .warning) → ∀ earlier ∈ xs, earlier.isRun = false

/-- Nothing is lost, repeated or overlapped between two points of a session. -/
structure Orderly (start : Session) (history : List Happening) (s : Session) : Prop where
  tracked : Tracked start.workflow start.hosts (allMoves history) s.workflow s.hosts
  count : s.scheduler.count = (Move.bindings (allMoves history)).length
  warned : (warnings history).length ≤ 1
  first : WarnsFirst history

/-- What a session keeps besides: the scheduler knows the first hosts, and has not run
unless it is prepared. -/
structure Kept (start : Session) (history : List Happening) (s : Session) : Prop
    extends Orderly start history s where
  knows : s.scheduler.known = start.hosts.length
  prepared : s.scheduler.prepared = false → ∀ e ∈ history, e.isRun = false

/-- What happens without a run leaves the scheduler and the log as they are. -/
theorem Kept.quiet {start s s' : Session} {history : List Happening} {e : Happening}
    (h : Kept start history s) (he : e.isRun = false) (hs : s'.scheduler = s.scheduler)
    (htracked : Tracked start.workflow start.hosts (allMoves (history ++ [e])) s'.workflow
      s'.hosts) :
    Kept start (history ++ [e]) s' := by
  constructor
  case knows => exact hs ▸ h.knows
  case prepared =>
    intro hprepared other hother
    rw [hs] at hprepared
    cases List.mem_append.mp hother with
    | inl hold => exact h.prepared hprepared other hold
    | inr hlast => rw [List.mem_singleton.mp hlast]; exact he
  case toOrderly =>
    refine ⟨htracked, ?_, ?_, ?_⟩
    · rw [allMoves_snoc, Move.bindings_append, bindings_moves_eq_nil he, List.append_nil, hs]
      exact h.count
    · rw [warnings_snoc, records_eq_nil he]
      simpa using h.warned
    · intro xs bindings records ys heq hwarning
      cases snoc_eq_append_cons.mp heq with
      | inl hlast => rw [hlast.2.2] at he; cases he
      | inr hold =>
          obtain ⟨zs, -, hhistory⟩ := hold
          exact h.first xs bindings records zs hhistory hwarning

/-- A run without a fault. -/
theorem Kept.run {start s : Session} {history : List Happening} {now : Float} {o : Online.Outcome}
    (h : Kept start history s) (hran : s.scheduler.Ran s.workflow s.hosts now o) :
    Kept start (history ++ [.ran o.dispatched.bindings o.records])
      ⟨o.scheduler, o.dispatched.workflow, o.dispatched.hosts⟩ := by
  obtain ⟨warning, hprepare, hrecords⟩ := hran.records
  obtain ⟨hone, hnone⟩ := Online.length_prepare hprepare
  have hfilter : o.records.filter (·.level = .warning) = warning.filter (·.level = .warning) := by
    rw [hrecords, List.filter_append, Online.filter_bindingRecords, List.append_nil]
  have hearlier (hsome : ∃ record ∈ o.records, record.level = .warning) :
      ∀ e ∈ history, e.isRun = false := by
    apply h.prepared
    rw [Bool.eq_false_iff]
    intro hprepared
    obtain ⟨record, hrecord, hlevel⟩ := hsome
    have hmem : record ∈ o.records.filter (·.level = .warning) :=
      List.mem_filter.mpr ⟨hrecord, decide_eq_true hlevel⟩
    rw [hfilter, hnone hprepared] at hmem
    cases hmem
  constructor
  case knows => rw [hran.scheduler]; exact h.knows
  case prepared =>
    intro hprepared
    rw [hran.scheduler] at hprepared
    cases hprepared
  case toOrderly =>
    constructor
    case tracked =>
      have hknown : ∀ b ∈ o.dispatched.bindings, b.host < start.hosts.length := fun b hb =>
        h.knows ▸ hran.known b hb
      rw [allMoves_snoc]
      have htracked := h.tracked.enterAll hran.allOpen hknown
      rw [← hran.entered] at htracked
      exact htracked
    case count =>
      rw [allMoves_snoc, Move.bindings_append, List.length_append, hran.scheduler, ← h.count]
      unfold Happening.moves
      rw [Move.bindings_bound]
    case warned =>
      rw [warnings_snoc, List.length_append]
      unfold Happening.records
      dsimp only
      rw [hfilter]
      cases hprepared : s.scheduler.prepared with
      | true =>
          rw [hnone hprepared]
          simpa using h.warned
      | false =>
          rw [warnings_eq_nil (h.prepared hprepared)]
          have hle := List.length_filter_le (fun r : Record => r.level = .warning) warning
          simp only [List.length_nil, Nat.zero_add]
          omega
    case first =>
      intro xs bindings records ys heq hwarning
      cases snoc_eq_append_cons.mp heq with
      | inl hlast =>
          obtain ⟨-, rfl, hsame⟩ := hlast
          rw [← (Happening.ran.inj hsame).2] at hwarning
          exact hearlier hwarning
      | inr hold =>
          obtain ⟨zs, -, hhistory⟩ := hold
          exact h.first xs bindings records zs hhistory hwarning

/-- The tasks that are found under some ids are those of the workflow. -/
theorem find?_of_mapM {w : Workflow} {ready : List Int} {tasks : List Task}
    (h : ready.mapM w.find? = some tasks) : ∀ t ∈ tasks, w.find? t.id = some t := by
  induction ready generalizing tasks with
  | nil =>
      intro t ht
      rw [← Option.some.inj h] at ht
      cases ht
  | cons id rest ih =>
      rw [List.mapM_cons] at h
      simp only [bind, Option.bind_eq_some_iff, pure, Option.some.injEq] at h
      obtain ⟨first, hfirst, others, hothers, rfl⟩ := h
      intro t ht
      cases List.mem_cons.mp ht with
      | inl heq =>
          rw [heq, Workflow.id_of_find? hfirst]
          exact hfirst
      | inr ht => exact ih hothers t ht

/-- **One step**: whatever happens keeps what a session keeps. -/
theorem Kept.step {start s s' : Session} {history : List Happening} {e : Happening}
    (h : Kept start history s) (hstep : Step s e s') : Kept start (history ++ [e]) s' := by
  cases hstep with
  | run found outcome passed => exact h.run (Online.ran_of_run (find?_of_mapM found) outcome passed)
  | release place =>
      refine h.quiet rfl rfl ?_
      rw [allMoves_snoc]
      exact h.tracked.release place
  | change bound states =>
      refine h.quiet rfl rfl ?_
      rw [allMoves_snoc]
      unfold Happening.moves
      rw [List.append_nil]
      exact h.tracked.change bound states

theorem kept_of_runs {w : Workflow} {hosts : List Host} {history : List Happening}
    {final : Session} (h : Runs ⟨Online.make hosts, w, hosts⟩ history final) :
    Kept ⟨Online.make hosts, w, hosts⟩ history final := by
  induction h with
  | nil =>
      refine ⟨⟨Tracked.nil w hosts, rfl, Nat.zero_le 1, fun xs bindings records ys heq => ?_⟩, rfl,
        fun _ e he => absurd he List.not_mem_nil⟩
      simp at heq
  | snoc before last ih => exact ih.step last

/-- **Dispatch over a session**: from a new scheduler for all hosts on, whatever tasks are
bound and whatever hosts are busy at the start, nothing is lost, repeated or overlapped. -/
theorem orderly_of_runs {w : Workflow} {hosts : List Host} {history : List Happening}
    {final : Session} (h : Runs ⟨Online.make hosts, w, hosts⟩ history final) :
    Orderly ⟨Online.make hosts, w, hosts⟩ history final :=
  (kept_of_runs h).toOrderly

/-- Two tasks without ranks. -/
def unrankedPair : Workflow where
  tasks := [Task.make 1 2 1 none none, Task.make 2 3 1 none none]
  nodup_ids := by decide

/-- The one host that they have. -/
def loneHost : Host where
  name := "host"
  speed := 1
  bandwidth := 0
  cores := 1
  state := .idle

/-- Both tasks are offered twice; each is bound once, the second after the release. -/
theorem orderly_unrankedPair : ∃ history final,
    Runs ⟨Online.make [loneHost], unrankedPair, [loneHost]⟩ history final ∧
      allMoves history = [.bound ⟨1, 0, "host"⟩, .released 0, .bound ⟨2, 0, "host"⟩] ∧
      Orderly ⟨Online.make [loneHost], unrankedPair, [loneHost]⟩ history final := by
  let one := (Online.make [loneHost]).run unrankedPair [loneHost] unrankedPair.tasks 0
  let hosts := Online.release one.dispatched.hosts 0
  let tasks := one.dispatched.workflow.tasks
  let two := one.scheduler.run one.dispatched.workflow hosts tasks 2
  have hone := Step.run (s := ⟨Online.make [loneHost], unrankedPair, [loneHost]⟩)
    (show [1, 2].mapM unrankedPair.find? = some unrankedPair.tasks from rfl)
    (show _ = one from rfl) (by decide +kernel)
  have htwo := Step.run (s := ⟨one.scheduler, one.dispatched.workflow, hosts⟩)
    (show [1, 2].mapM one.dispatched.workflow.find? = some tasks by decide +kernel)
    (show _ = two from rfl) (by decide +kernel)
  have hruns := ((Runs.nil.snoc hone).snoc (.release 0)).snoc htwo
  exact ⟨_, _, hruns, by decide +kernel, orderly_of_runs hruns⟩

end Session

end SharedLink
