import SharedLink.Proofs.Calls
import SharedLink.Proofs.Routes

/-!
# SharedLink.Proofs.Construction

Workflows that are built by their operations.

A dependency is added on both ends at once, but only the parent's end is looked at to
see whether it is there already.  That the child's end holds no dependency twice rests on
both ends agreeing, which every operation keeps: tasks are added without dependencies,
files touch none, and a call whose steps stop at a fault has written nothing before.

* `Workflow.after`, `performAll` — what becomes of a workflow by the steps of calls;
* `Workflow.Refuses` — why a call fails;
* `perform_eq_error_iff` — calls fail for these reasons only;
* `WellFormed.perform`, `wellFormed_performAll` — one call and all calls keep a workflow
  well formed;
* `built_of_calls` — what holds of a workflow that is built from nothing.
-/

namespace SharedLink

namespace Workflow

/-! ## calls -/

/-- The workflow behind a call: what its steps have left, all of them or those before a fault. -/
def after (w : Workflow) (call : Call) : Workflow :=
  match call.steps.run w with
  | .ok _ w' => w'
  | .error _ w' => w'

/-- The workflow behind some calls in turn, whichever of them fail. -/
def performAll (w : Workflow) (calls : List Call) : Workflow := calls.foldl after w

/-- Those of some calls in turn that do not fail. -/
def accepted (w : Workflow) : List Call → List Call
  | [] => []
  | call :: rest =>
    match call.steps.run w with
    | .ok _ w' => call :: accepted w' rest
    | .error _ w' => accepted w' rest

/-- Why a call fails. -/
inductive Refuses (w : Workflow) : Call → Fault → Prop
  | duplicateTask {id : Int} {length cores : Quantity} {name label : Option String}
      (taken : w.contains id = true) :
      Refuses w (.addTask id length cores name label) (.duplicateTask id)
  | selfDependency {id : Int} : Refuses w (.addDependency id id) (.selfDependency id)
  | unknownParent {parent child : Int} (distinct : parent ≠ child)
      (unknown : w.contains parent = false) :
      Refuses w (.addDependency parent child) (.unknownTask parent)
  | unknownChild {parent child : Int} (distinct : parent ≠ child)
      (known : w.contains parent = true) (unknown : w.contains child = false) :
      Refuses w (.addDependency parent child) (.unknownTask child)
  | unknownOwner {id : Int} {name : String} {size : Quantity} {kind : FileKind.Given}
      (unknown : w.contains id = false) : Refuses w (.addFile id name size kind) (.unknownTask id)
  | negativeSize {id : Int} {name : String} {size : Quantity} {kind : FileKind.Given}
      (known : w.contains id = true) (negative : size.isNegative = true) :
      Refuses w (.addFile id name size kind) (.negativeSize size)
  | noFileKind {id : Int} {name : String} {size : Quantity} {kind : FileKind.Given}
      (known : w.contains id = true) (nonneg : size.isNegative = false)
      (neither : kind ≠ .code 1 ∧ kind ≠ .code 2) :
      Refuses w (.addFile id name size kind) (.noFileKind kind.write)

end Workflow

namespace FileKind

/-- Only the numbers one and two are kinds. -/
theorem ofGiven_eq_error_iff {given : Given} {fault : Fault} :
    ofGiven given = .error fault ↔
      (given ≠ .code 1 ∧ given ≠ .code 2) ∧ .noFileKind given.write = fault := by
  unfold ofGiven
  split <;> grind

end FileKind

/-- A file is refused for its size, and for its kind if the size is none. -/
theorem FileItem.make_eq_error_iff {name : String} {size : Quantity} {given : FileKind.Given}
    {fault : Fault} : make name size given = .error fault ↔
      size.isNegative = true ∧ .negativeSize size = fault ∨
      size.isNegative = false ∧ FileKind.ofGiven given = .error fault := by
  unfold make
  split
  · next hneg => simp [hneg]
  · next hneg =>
      have hneg : size.isNegative = false := Bool.eq_false_iff.mpr hneg
      cases hkind : FileKind.ofGiven given with
      | error kindFault => simp [hneg, bind, Except.bind]
      | ok kind => simp [hneg, bind, Except.bind, pure, Except.pure]

namespace Workflow

theorem addTask_eq_error_iff {w : Workflow} {t : Task} {fault : Fault} :
    w.addTask t = .error fault ↔ w.contains t.id = true ∧ .duplicateTask t.id = fault := by
  have htaken : w.contains t.id = true ↔ t.id ∈ w.tasks.map (·.id) := List.contains_iff_mem
  rw [htaken]
  unfold addTask
  split
  · next hmem => simp [hmem]
  · next hmem => simp [hmem]

theorem addDependency_eq_error_iff {w : Workflow} {parent child : Int} {fault : Fault} :
    w.addDependency parent child = .error fault ↔
      parent = child ∧ .selfDependency parent = fault ∨
      parent ≠ child ∧ w.contains parent = false ∧ .unknownTask parent = fault ∨
      parent ≠ child ∧ w.contains parent = true ∧ w.contains child = false ∧
        .unknownTask child = fault := by
  unfold addDependency
  by_cases hself : parent = child
  · simp [hself]
  · rw [if_neg hself]
    cases hp : w.find? parent with
    | none => simp [hself, find?_eq_none_iff.mp hp]
    | some p =>
        have hparent : w.contains parent = true := contains_iff_find?.mpr ⟨p, hp⟩
        cases hc : w.find? child with
        | none => simp [hself, hparent, find?_eq_none_iff.mp hc]
        | some c =>
            have hchild : w.contains child = true := contains_iff_find?.mpr ⟨c, hc⟩
            simp only [hself, hparent, hchild]
            split <;> simp

theorem addFile_eq_error_iff {w : Workflow} {id : Int} {name : String} {size : Quantity}
    {kind : FileKind.Given} {fault : Fault} :
    w.addFile id name size kind = .error fault ↔
      w.contains id = false ∧ .unknownTask id = fault ∨
      w.contains id = true ∧ FileItem.make name size kind = .error fault := by
  unfold addFile
  cases ht : w.find? id with
  | none => simp [find?_eq_none_iff.mp ht]
  | some t =>
      have hknown : w.contains id = true := contains_iff_find?.mpr ⟨t, ht⟩
      cases hfile : FileItem.make name size kind with
      | error fileFault => simp [hknown, bind, Except.bind]
      | ok file => simp [hknown, bind, Except.bind, pure, Except.pure]

/-- **Refusals**: a call fails just for the reasons listed. -/
theorem perform_eq_error_iff {w : Workflow} {call : Call} {fault : Fault} :
    w.perform call = .error fault ↔ w.Refuses call fault := by
  cases call with
  | addTask id length cores name label =>
      unfold perform
      rw [addTask_eq_error_iff]
      constructor
      · rintro ⟨htaken, rfl⟩
        exact .duplicateTask htaken
      · rintro ⟨htaken⟩
        exact ⟨htaken, rfl⟩
  | addDependency parent child =>
      unfold perform
      rw [addDependency_eq_error_iff]
      constructor
      · rintro (⟨rfl, rfl⟩ | ⟨hne, hparent, rfl⟩ | ⟨hne, hparent, hchild, rfl⟩)
        · exact .selfDependency
        · exact .unknownParent hne hparent
        · exact .unknownChild hne hparent hchild
      · intro h
        cases h with
        | selfDependency => exact .inl ⟨rfl, rfl⟩
        | unknownParent hne hparent => exact .inr (.inl ⟨hne, hparent, rfl⟩)
        | unknownChild hne hparent hchild => exact .inr (.inr ⟨hne, hparent, hchild, rfl⟩)
  | addFile id name size kind =>
      have hfile : w.perform (.addFile id name size kind) = .error fault ↔
          w.addFile id name size kind = .error fault := by
        unfold perform
        rw [bind_eq_error_iff]
        simp [pure, Except.pure]
      rw [hfile, addFile_eq_error_iff, FileItem.make_eq_error_iff, FileKind.ofGiven_eq_error_iff]
      constructor
      · rintro (⟨hid, rfl⟩ | ⟨hid, ⟨hneg, rfl⟩ | ⟨hneg, hkind, rfl⟩⟩)
        · exact .unknownOwner hid
        · exact .negativeSize hid hneg
        · exact .noFileKind hid hneg hkind
      · intro h
        cases h with
        | unknownOwner hid => exact .inl ⟨hid, rfl⟩
        | negativeSize hid hneg => exact .inr ⟨hid, .inl ⟨hneg, rfl⟩⟩
        | noFileKind hid hneg hkind => exact .inr ⟨hid, .inr ⟨hneg, hkind, rfl⟩⟩

/-! ## what is listed -/

/-- Only tasks have children. -/
theorem mem_ids_of_childrenOf {w : Workflow} {child id : Int} (h : child ∈ w.childrenOf id) :
    id ∈ w.ids := by
  unfold childrenOf at h
  cases ht : w.find? id with
  | none =>
      rw [ht] at h
      cases h
  | some t => exact List.contains_iff_mem.mp (contains_iff_find?.mpr ⟨t, ht⟩)

/-- What a change of one task means for a part of the tasks other than their ids. -/
theorem map_find?_modify {α : Type} (part : Task → α)
    (hpart : ∀ t id, part { t with id := id } = part t) (w : Workflow) (id : Int)
    (f : Task → Task) (other : Int) :
    ((w.modify id f).find? other).map part =
      if other = id then (w.find? other).map (part ∘ f) else (w.find? other).map part := by
  rw [find?_modify]
  split
  · rw [Option.map_map]
    congr 1
    funext t
    exact hpart (f t) t.id
  · rfl

theorem childrenOf_modify (w : Workflow) (id : Int) (f : Task → Task) (other : Int) :
    (w.modify id f).childrenOf other =
      if other = id then ((w.find? other).map fun t => (f t).children).getD []
      else w.childrenOf other := by
  unfold childrenOf
  rw [map_find?_modify Task.children fun _ _ => rfl]
  split <;> rfl

theorem parentsOf_modify (w : Workflow) (id : Int) (f : Task → Task) (other : Int) :
    (w.modify id f).parentsOf other =
      if other = id then ((w.find? other).map fun t => (f t).parents).getD []
      else w.parentsOf other := by
  unfold parentsOf
  rw [map_find?_modify Task.parents fun _ _ => rfl]
  split <;> rfl

/-- A change that keeps the children of a task keeps all children. -/
theorem childrenOf_modify_of_same {f : Task → Task} (hf : ∀ t, (f t).children = t.children)
    (w : Workflow) (id other : Int) : (w.modify id f).childrenOf other = w.childrenOf other := by
  rw [childrenOf_modify]
  simp only [hf]
  exact ite_self _

/-- A change that keeps the parents of a task keeps all parents. -/
theorem parentsOf_modify_of_same {f : Task → Task} (hf : ∀ t, (f t).parents = t.parents)
    (w : Workflow) (id other : Int) : (w.modify id f).parentsOf other = w.parentsOf other := by
  rw [parentsOf_modify]
  simp only [hf]
  exact ite_self _

/-- Two workflows have the same dependencies, listed alike. -/
structure SameLinks (w w' : Workflow) : Prop where
  children : ∀ id, w'.childrenOf id = w.childrenOf id
  parents : ∀ id, w'.parentsOf id = w.parentsOf id

/-- One dependency more is listed, behind the others on both of its ends. -/
structure Links (w w' : Workflow) (parent child : Int) : Prop where
  children : ∀ id, w'.childrenOf id =
    if id = parent then w.childrenOf id ++ [child] else w.childrenOf id
  parents : ∀ id, w'.parentsOf id =
    if id = child then w.parentsOf id ++ [parent] else w.parentsOf id

theorem sameLinks_of_addTask {w w' : Workflow} {t : Task} (hparents : t.parents = [])
    (hchildren : t.children = []) (h : w.addTask t = .ok w') : SameLinks w w' := by
  have hnew : w.find? t.id = none := by
    rw [find?_eq_none_iff, ← Bool.not_eq_true]
    intro htaken
    rw [addTask_eq_error_iff.mpr ⟨htaken, rfl⟩] at h
    cases h
  constructor
  · intro id
    unfold childrenOf
    rw [find?_addTask h]
    split
    · next hid => simp [← hid, hnew, hchildren]
    · rfl
  · intro id
    unfold parentsOf
    rw [find?_addTask h]
    split
    · next hid => simp [← hid, hnew, hparents]
    · rfl

theorem sameLinks_of_addFile {w w' : Workflow} {id : Int} {name : String} {size : Quantity}
    {kind : FileKind.Given} {file : FileItem} (h : w.addFile id name size kind = .ok (file, w')) :
    SameLinks w w' := by
  unfold addFile at h
  split at h
  · cases h
  · obtain ⟨file', -, h⟩ := bind_eq_ok_iff.mp h
    obtain ⟨-, rfl⟩ := Prod.mk.inj (Except.ok.inj h)
    exact ⟨childrenOf_modify_of_same (by simp) w id, parentsOf_modify_of_same (by simp) w id⟩

/-- A dependency is added between two different tasks: it is there already and nothing
changes, or it is listed on both ends. -/
theorem links_of_addDependency {w w' : Workflow} {parent child : Int}
    (h : w.addDependency parent child = .ok w') :
    parent ≠ child ∧ (child ∈ w.childrenOf parent ∧ w' = w ∨
      child ∉ w.childrenOf parent ∧ Links w w' parent child) := by
  unfold addDependency at h
  split at h
  · cases h
  · next hself =>
      refine ⟨hself, ?_⟩
      split at h
      · cases h
      · cases h
      · next p c hp hc =>
          rw [childrenOf_eq hp]
          split at h
          · next hlisted => exact .inl ⟨List.contains_iff_mem.mp hlisted, (Except.ok.inj h).symm⟩
          · next hlisted =>
              refine .inr ⟨fun hmem => hlisted (List.contains_iff_mem.mpr hmem), ?_⟩
              rw [← Except.ok.inj h]
              constructor
              · intro id
                rw [childrenOf_modify_of_same (by simp), childrenOf_modify]
                split
                · next hid => simp [hid, childrenOf_eq hp, hp]
                · rfl
              · intro id
                rw [parentsOf_modify]
                split
                · next hid =>
                    have hne : child ≠ parent := fun heq => hself heq.symm
                    simp [hid, parentsOf_eq hc, find?_modify, hne, hc]
                · exact parentsOf_modify_of_same (by simp) w parent id

/-- What a call that does not fail lists: nothing new, or the dependency that it adds. -/
theorem links_of_perform {w w' : Workflow} {call : Call} (h : w.perform call = .ok w') :
    SameLinks w w' ∧ (∀ a b, call = .addDependency a b → b ∈ w.childrenOf a) ∨
      ∃ a b, call = .addDependency a b ∧ a ≠ b ∧ b ∉ w.childrenOf a ∧ Links w w' a b := by
  cases call with
  | addTask id length cores name label =>
      exact .inl ⟨sameLinks_of_addTask rfl rfl h, by simp⟩
  | addFile id name size kind =>
      obtain ⟨⟨file, w''⟩, hfile, h⟩ := bind_eq_ok_iff.mp h
      rw [← Except.ok.inj h]
      exact .inl ⟨sameLinks_of_addFile hfile, by simp⟩
  | addDependency parent child =>
      obtain ⟨hne, ⟨hlisted, rfl⟩ | ⟨hlisted, hlinks⟩⟩ := links_of_addDependency h
      · refine .inl ⟨⟨fun _ => rfl, fun _ => rfl⟩, fun a b hcall => ?_⟩
        obtain ⟨rfl, rfl⟩ := Call.addDependency.inj hcall
        exact hlisted
      · exact .inr ⟨parent, child, rfl, hne, hlisted, hlinks⟩

/-! ## what calls keep -/

/-- Both ends of every dependency agree and list it once, and no task depends on itself. -/
structure WellFormed (w : Workflow) : Prop where
  mirrored : ∀ a b, b ∈ w.childrenOf a ↔ a ∈ w.parentsOf b
  nodup_children : ∀ a, (w.childrenOf a).Nodup
  nodup_parents : ∀ b, (w.parentsOf b).Nodup
  irreflexive : ∀ a, a ∉ w.parentsOf a

theorem wellFormed_empty : empty.WellFormed where
  mirrored _ _ := by simp [childrenOf, parentsOf, find?, empty]
  nodup_children _ := .nil
  nodup_parents _ := .nil
  irreflexive _ := List.not_mem_nil

theorem SameLinks.wellFormed {w w' : Workflow} (hsame : SameLinks w w') (h : w.WellFormed) :
    w'.WellFormed where
  mirrored a b := by
    rw [hsame.children, hsame.parents]
    exact h.mirrored a b
  nodup_children a := hsame.children a ▸ h.nodup_children a
  nodup_parents b := hsame.parents b ▸ h.nodup_parents b
  irreflexive a := hsame.parents a ▸ h.irreflexive a

/-- A new dependency is on neither end yet, since the ends agree. -/
theorem Links.wellFormed {w w' : Workflow} {parent child : Int} (hlinks : Links w w' parent child)
    (hne : parent ≠ child) (hnew : child ∉ w.childrenOf parent) (h : w.WellFormed) :
    w'.WellFormed := by
  have hnew' : parent ∉ w.parentsOf child := fun hmem => hnew ((h.mirrored parent child).mpr hmem)
  constructor
  case mirrored =>
    intro a b
    rw [hlinks.children, hlinks.parents]
    have hold := h.mirrored a b
    grind
  case nodup_children =>
    intro a
    rw [hlinks.children]
    split
    · next ha => simpa using (h.nodup_children a).concat (ha ▸ hnew)
    · exact h.nodup_children a
  case nodup_parents =>
    intro b
    rw [hlinks.parents]
    split
    · next hb => simpa using (h.nodup_parents b).concat (hb ▸ hnew')
    · exact h.nodup_parents b
  case irreflexive =>
    intro a
    rw [hlinks.parents]
    have hold := h.irreflexive a
    grind

/-- **One call**: a call that does not fail keeps the workflow well formed. -/
theorem WellFormed.perform {w w' : Workflow} {call : Call} (h : w.WellFormed)
    (hcall : w.perform call = .ok w') : w'.WellFormed := by
  obtain ⟨hsame, -⟩ | ⟨a, b, -, hne, hnew, hlinks⟩ := links_of_perform hcall
  · exact hsame.wellFormed h
  · exact hlinks.wellFormed hne hnew h

/-- A call that does not fail lists the dependency that it adds, and no other. -/
theorem mem_childrenOf_perform {w w' : Workflow} {call : Call} (h : w.perform call = .ok w')
    (a b : Int) : b ∈ w'.childrenOf a ↔ b ∈ w.childrenOf a ∨ call = .addDependency a b := by
  obtain ⟨hsame, hlisted⟩ | ⟨parent, child, rfl, -, -, hlinks⟩ := links_of_perform h
  · rw [hsame.children]
    exact ⟨.inl, fun h => h.elim id (hlisted a b)⟩
  · rw [hlinks.children, Call.addDependency.injEq]
    grind

/-- What the steps of a call leave when they stop at a fault is what there was. -/
theorem run_steps_eq_error_iff {w w' : Workflow} {call : Call} {fault : Fault} :
    call.steps.run w = .error fault w' ↔ w.Refuses call fault ∧ w' = w := by
  rw [call.run_steps, ← perform_eq_error_iff]
  cases w.perform call with
  | ok w'' => simp [InPlace.whole]
  | error found => simp [InPlace.whole, eq_comm]

theorem performAll_cons_ok {w w' : Workflow} {call : Call} (h : w.perform call = .ok w')
    (rest : List Call) : w.performAll (call :: rest) = w'.performAll rest ∧
      w.accepted (call :: rest) = call :: w'.accepted rest := by
  have hrun : call.steps.run w = .ok () w' := by rw [call.run_steps, h, InPlace.whole]
  simp only [performAll, List.foldl_cons, accepted, after, hrun, and_self]

theorem performAll_cons_error {w : Workflow} {call : Call} {fault : Fault}
    (h : w.perform call = .error fault) (rest : List Call) :
    w.performAll (call :: rest) = w.performAll rest ∧
      w.accepted (call :: rest) = w.accepted rest := by
  have hrun : call.steps.run w = .error fault w := by rw [call.run_steps, h, InPlace.whole]
  simp only [performAll, List.foldl_cons, accepted, after, hrun, and_self]

/-- **All calls** keep the workflow well formed, and what they add to its dependencies is what
they were called for and did not refuse. -/
theorem wellFormed_performAll {w : Workflow} (h : w.WellFormed) (calls : List Call) :
    (w.performAll calls).WellFormed ∧ ∀ a b, b ∈ (w.performAll calls).childrenOf a ↔
      b ∈ w.childrenOf a ∨ .addDependency a b ∈ w.accepted calls := by
  induction calls generalizing w with
  | nil => exact ⟨h, fun a b => by simp [performAll, accepted]⟩
  | cons call rest ih =>
      cases hcall : w.perform call with
      | error fault =>
          obtain ⟨hall, haccepted⟩ := performAll_cons_error hcall rest
          rw [hall, haccepted]
          exact ih h
      | ok w' =>
          obtain ⟨hall, haccepted⟩ := performAll_cons_ok hcall rest
          obtain ⟨hwell, hmem⟩ := ih (h.perform hcall)
          rw [hall, haccepted]
          refine ⟨hwell, fun a b => ?_⟩
          rw [hmem, mem_childrenOf_perform hcall, List.mem_cons, or_assoc, eq_comm]

/-! ## what the check sees -/

/-- **The check** passes just if every listed id is a task and both ends of every pair agree. -/
theorem check_eq_ok_iff_mirrored {w : Workflow} : w.check = .ok () ↔
    (∀ t ∈ w.tasks, ∀ id ∈ t.parents ++ t.children, w.contains id = true) ∧
      ∀ a ∈ w.tasks, ∀ b ∈ w.tasks, b.id ∈ a.children ↔ a.id ∈ b.parents := by
  rw [check_eq_ok_iff]
  constructor
  · intro h
    refine ⟨fun t ht id hid => ?_, fun a ha b hb => ⟨fun hchild => ?_, fun hparent => ?_⟩⟩
    · rw [contains_iff_find?]
      cases List.mem_append.mp hid with
      | inl hparent => exact ((h t ht).1 id hparent).imp fun _ hp => hp.1
      | inr hchild => exact ((h t ht).2 id hchild).imp fun _ hc => hc.1
    · obtain ⟨c, hc, hmem⟩ := (h a ha).2 b.id hchild
      rwa [Option.some.inj ((find?_of_mem hb).symm.trans hc)]
    · obtain ⟨p, hp, hmem⟩ := (h b hb).1 a.id hparent
      rwa [Option.some.inj ((find?_of_mem ha).symm.trans hp)]
  · intro ⟨hknown, hmirrored⟩ t ht
    constructor
    · intro parent hparent
      obtain ⟨p, hp⟩ := contains_iff_find?.mp (hknown t ht parent (List.mem_append_left _ hparent))
      rw [← id_of_find? hp] at hparent
      exact ⟨p, hp, (hmirrored p (List.mem_of_find?_eq_some hp) t ht).mpr hparent⟩
    · intro child hchild
      obtain ⟨c, hc⟩ := contains_iff_find?.mp (hknown t ht child (List.mem_append_right _ hchild))
      rw [← id_of_find? hc] at hchild
      exact ⟨c, hc, (hmirrored t ht c (List.mem_of_find?_eq_some hc)).mp hchild⟩

/-- Every listed id is a task. -/
theorem WellFormed.contains_of_mem {w : Workflow} (h : w.WellFormed) {id other : Int}
    (hlisted : other ∈ w.parentsOf id ++ w.childrenOf id) : w.contains other = true := by
  unfold Workflow.contains
  rw [List.contains_iff_mem]
  cases List.mem_append.mp hlisted with
  | inl hparent => exact mem_ids_of_childrenOf ((h.mirrored other id).mpr hparent)
  | inr hchild => exact mem_ids_of_parentsOf ((h.mirrored id other).mp hchild)

/-- A well-formed workflow passes the check. -/
theorem WellFormed.check_eq_ok {w : Workflow} (h : w.WellFormed) : w.check = .ok () := by
  rw [check_eq_ok_iff_mirrored]
  refine ⟨fun t ht id hid => ?_, fun a ha b hb => ?_⟩
  · rw [← parentsOf_eq (find?_of_mem ht), ← childrenOf_eq (find?_of_mem ht)] at hid
    exact h.contains_of_mem hid
  · rw [← childrenOf_eq (find?_of_mem ha), ← parentsOf_eq (find?_of_mem hb)]
    exact h.mirrored a.id b.id

/-- To add a dependency that is there is not refused, and changes nothing. -/
theorem WellFormed.perform_repeated {w : Workflow} (h : w.WellFormed) {a b : Int}
    (hlisted : b ∈ w.childrenOf a) : w.perform (.addDependency a b) = .ok w := by
  have hparent := (h.mirrored a b).mp hlisted
  have hne : a ≠ b := fun heq => h.irreflexive b (heq ▸ hparent)
  have ha : w.contains a = true := List.contains_iff_mem.mpr (mem_ids_of_childrenOf hlisted)
  have hb : w.contains b = true := List.contains_iff_mem.mpr (mem_ids_of_parentsOf hparent)
  cases hcall : w.addDependency a b with
  | error fault =>
      have hrefused := addDependency_eq_error_iff.mp hcall
      simp [hne, ha, hb] at hrefused
  | ok w' =>
      obtain ⟨-, ⟨-, rfl⟩ | ⟨hnew, -⟩⟩ := links_of_addDependency hcall
      · exact hcall
      · exact absurd hlisted hnew

/-! ## workflows from nothing -/

/-- What holds of a workflow `w` that some calls have built. -/
structure Built (calls : List Call) (w : Workflow) : Prop where
  /-- both ends of every dependency agree, and no task depends on itself -/
  wellFormed : w.WellFormed
  /-- each dependency is listed once on both ends -/
  once : ∀ a b, b ∈ w.childrenOf a → (w.childrenOf a).count b = 1 ∧ (w.parentsOf b).count a = 1
  /-- every listed id is a task -/
  known : ∀ t ∈ w.tasks, ∀ id ∈ t.parents ++ t.children, w.contains id = true
  /-- the check passes -/
  checked : w.check = .ok ()
  /-- the dependencies are those that were called for and not refused -/
  edges : ∀ a b, b ∈ w.childrenOf a ↔ .addDependency a b ∈ empty.accepted calls
  /-- the next call fails for the reasons listed and for no others -/
  refused : ∀ call fault, w.perform call = .error fault ↔ w.Refuses call fault
  /-- its steps stop for the same reasons, with everything as it was -/
  stopped : ∀ call fault w', call.steps.run w = .error fault w' ↔ w.Refuses call fault ∧ w' = w
  /-- if it fails, it leaves everything as it was -/
  unchanged : ∀ call fault, w.perform call = .error fault →
    empty.performAll (calls ++ [call]) = w
  /-- to add a dependency again changes nothing either -/
  repeated : ∀ a b, b ∈ w.childrenOf a → w.perform (.addDependency a b) = .ok w

/-- **Construction**: whatever is called in whatever order, the workflow is well formed and its
dependencies are those that were not refused, so that nothing but these tells them apart.  A
workflow with any lists passes the check just if they name tasks and mirror each other. -/
theorem built_of_calls :
    (∀ calls, Built calls (empty.performAll calls)) ∧
    (∀ calls others, (∀ a b, Call.addDependency a b ∈ empty.accepted calls ↔
        Call.addDependency a b ∈ empty.accepted others) →
      ∀ a b, b ∈ (empty.performAll calls).childrenOf a ↔
        b ∈ (empty.performAll others).childrenOf a) ∧
    ∀ w : Workflow, w.check = .ok () ↔
      (∀ t ∈ w.tasks, ∀ id ∈ t.parents ++ t.children, w.contains id = true) ∧
        ∀ a ∈ w.tasks, ∀ b ∈ w.tasks, b.id ∈ a.children ↔ a.id ∈ b.parents := by
  have hnone (a b : Int) : b ∉ empty.childrenOf a := List.not_mem_nil
  have hedges (calls : List Call) (a b : Int) : b ∈ (empty.performAll calls).childrenOf a ↔
      .addDependency a b ∈ empty.accepted calls := by
    rw [(wellFormed_performAll wellFormed_empty calls).2 a b, or_iff_right (hnone a b)]
  refine ⟨fun calls => ?_, fun calls others haccepted a b => ?_, fun w => check_eq_ok_iff_mirrored⟩
  · have hwell := (wellFormed_performAll wellFormed_empty calls).1
    constructor
    case wellFormed => exact hwell
    case once =>
      intro a b hlisted
      have hparent := (hwell.mirrored a b).mp hlisted
      exact ⟨List.count_eq_one_of_mem (hwell.nodup_children a) hlisted,
        List.count_eq_one_of_mem (hwell.nodup_parents b) hparent⟩
    case known => exact (check_eq_ok_iff_mirrored.mp hwell.check_eq_ok).1
    case checked => exact hwell.check_eq_ok
    case edges => exact hedges calls
    case refused => exact fun call fault => perform_eq_error_iff
    case stopped => exact fun call fault w' => run_steps_eq_error_iff
    case unchanged =>
      intro call fault hcall
      have hall : empty.performAll (calls ++ [call]) = (empty.performAll calls).performAll [call] :=
        List.foldl_append
      rw [hall, (performAll_cons_error hcall []).1]
      rfl
    case repeated => exact fun a b => hwell.perform_repeated
  · rw [hedges, hedges]
    exact haccepted a b

/-- Two tasks and a dependency between them, which is called for twice; a task cannot
depend on itself, nor on what is no task. -/
def pairCalls : List Call :=
  [.addTask 1 2 1 none none, .addTask 2 3 1 none none, .addDependency 1 2, .addDependency 2 2,
    .addDependency 3 1, .addDependency 1 2]

/-- The same in another order, with a task that is there already. -/
def otherPairCalls : List Call :=
  [.addTask 2 3 1 none none, .addDependency 1 2, .addTask 1 2 1 none none, .addDependency 1 2,
    .addTask 2 5 1 none none]

theorem built_pair :
    empty.accepted pairCalls = [.addTask 1 2 1 none none, .addTask 2 3 1 none none,
      .addDependency 1 2, .addDependency 1 2] ∧
    empty.accepted otherPairCalls = [.addTask 2 3 1 none none, .addTask 1 2 1 none none,
      .addDependency 1 2] ∧
    Built pairCalls (empty.performAll pairCalls) ∧
    ∀ a b, b ∈ (empty.performAll pairCalls).childrenOf a ↔
      b ∈ (empty.performAll otherPairCalls).childrenOf a := by
  have haccepted : empty.accepted pairCalls = [.addTask 1 2 1 none none, .addTask 2 3 1 none none,
      .addDependency 1 2, .addDependency 1 2] := by decide +kernel
  have hother : empty.accepted otherPairCalls = [.addTask 2 3 1 none none,
      .addTask 1 2 1 none none, .addDependency 1 2] := by decide +kernel
  obtain ⟨hbuilt, hsame, -⟩ := built_of_calls
  refine ⟨haccepted, hother, hbuilt pairCalls, hsame pairCalls otherPairCalls fun a b => ?_⟩
  simp [haccepted, hother]

end Workflow

end SharedLink
