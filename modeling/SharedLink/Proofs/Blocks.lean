import SharedLink.Proofs.Arrangement
import SharedLink.Proofs.Listing
import SharedLink.Proofs.Settling

/-!
# SharedLink.Proofs.Blocks

In what blocks a plan places its tasks.

Serving a path settles its tasks and some of their parents, and all of these lead up from
the last task of the path.  So each path adds one block: its last task with all of its
ancestors, as far as no costlier path has placed them.  What is on no such way up comes
last, which only happens on cycles.

* `settleEach_of_serveTask` — serving is settling one task after the other;
* `exists_block` — what one path adds;
* `exists_blocks` — what all of them add;
* `served_of_build` — a plan in blocks, in the order of the costs of its paths.
-/

namespace SharedLink

open Timescale

namespace Workflow

variable {w : Workflow} {path : List Int} {id x : Int}

/-- A task of which the last task of a path is, or is reached from, one generation after another. -/
def Above (w : Workflow) (path : List Int) (x : Int) : Prop :=
  ∃ leaf, path.getLast? = some leaf ∧ (x = leaf ∨ w.Ancestor x leaf)

/-- Past nothing, a task leads to itself and to its ancestors. -/
theorem leads_nil_iff : w.Leads [] id x ↔ x = id ∨ w.Ancestor x id := by
  have hlinks : (fun child parent => parent ∈ w.parentsOf child ∧ parent ∉ ([] : List Int)) =
      Function.swap fun parent child => parent ∈ w.parentsOf child := by
    funext child parent
    simp [Function.swap]
  unfold Leads Ancestor
  rw [hlinks, Relation.reflTransGen_swap, Relation.reflTransGen_iff_eq_or_transGen, eq_comm]

theorem above_iff_leads {leaf : Int} (hleaf : path.getLast? = some leaf) :
    w.Above path x ↔ w.Leads [] leaf x := by
  rw [leads_nil_iff]
  unfold Above
  constructor
  · intro ⟨other, hother, hx⟩
    rwa [Option.some.inj (hleaf.symm.trans hother)]
  · intro hx
    exact ⟨leaf, hleaf, hx⟩

/-- The last task of a path leads to all tasks of it. -/
theorem Descends.leads (h : w.Descends path) {leaf : Int} (hleaf : path.getLast? = some leaf) :
    ∀ id ∈ path, w.Leads [] leaf id := by
  induction h with
  | nil => exact fun id hid => absurd hid List.not_mem_nil
  | singleton id =>
      intro other hother
      obtain rfl : id = leaf := Option.some.inj hleaf
      rw [List.mem_singleton.mp hother]
      exact .refl
  | @cons_cons id next rest hlink hrest ih =>
      rw [List.getLast?_cons_cons] at hleaf
      intro other hother
      cases List.mem_cons.mp hother with
      | inl heq =>
          rw [heq]
          exact (ih hleaf next List.mem_cons_self).tail ⟨hlink, List.not_mem_nil⟩
      | inr hother => exact ih hleaf other hother

end Workflow

namespace Draft

variable {τ : Type} [Timescale τ] {w : Workflow} {d d' : Draft τ} {ids : List Int}

/-- Settling tasks without a fault is settling each of them. -/
theorem settleEach_of_foldlM (h : ids.foldlM (settled w) d = .ok d') : d' = d.settleEach w ids := by
  induction ids generalizing d with
  | nil => exact (pure_eq_ok_iff.mp h).symm
  | cons id rest ih =>
      obtain ⟨mid, hmid, hrest⟩ := foldlM_cons_eq_ok_iff.mp h
      have hsettle : (d.settle w id).1 = mid := by
        unfold settled at hmid
        split at hmid
        next hnone => rw [hnone, Except.ok.inj hmid]
        next => cases hmid
      rw [ih hrest, ← hsettle]
      rfl

/-- The cost of a path, of which all tasks are known. -/
def pathTotal (d : Draft τ) (path : List Int) : τ := (path.map d.totalOf).foldl (· + ·) 0

theorem pathCost_eq {path : List Int} (h : ∀ id ∈ path, ∃ cost, d.costOf id = .ok cost) :
    d.pathCost path = .ok (d.pathTotal path) := by
  refine bind_eq_ok_iff.mpr ⟨path.map d.totalOf, mapM_eq_ok_map fun id hid => ?_, rfl⟩
  obtain ⟨cost, hcost⟩ := h id hid
  rw [totalOf_eq hcost]
  exact bind_eq_ok_iff.mpr ⟨cost, hcost, rfl⟩

theorem settleEach_append (ids others : List Int) :
    d.settleEach w (ids ++ others) = (d.settleEach w ids).settleEach w others :=
  List.foldl_append

end Draft

namespace Plan

open Draft

variable {τ : Type} [Timescale τ] [Arithmetic τ] {w : Workflow} {d d' : Draft τ} {bound : Int}
  {id : Int} {path : List Int}

/-! ## one path -/

/-- Serving a task settles some of its parents and then the task. -/
theorem settleEach_of_serveTask (hprepared : Prepared w d) (hrec : w.Reciprocal)
    (h : serveTask w bound d id = .ok d') :
    ∃ parents, parents ⊆ w.parentsOf id ∧ d' = d.settleEach w (parents ++ [id]) := by
  unfold serveTask at h
  obtain ⟨t, ht, h⟩ := bind_eq_ok_iff.mp h
  have hopen : openParents d t ⊆ w.parentsOf id := by
    rw [Workflow.parentsOf_eq (Workflow.get_eq_ok_iff.mp ht)]
    exact List.filter_subset_self _
  have hchosen : ∃ parents, parents ⊆ w.parentsOf id ∧
      (parents.foldlM (settled w) d >>= fun d => settled w d id) = .ok d' := by
    dsimp only at h
    split at h
    · exact ⟨_, hopen, h⟩
    · obtain ⟨parents, harrange, h⟩ := bind_eq_ok_iff.mp h
      obtain ⟨chosen, hchosen, hperm⟩ := hprepared.exists_arrange bound fun parent hparent =>
        hrec.contains_parent (hopen hparent)
      obtain rfl := Except.ok.inj (hchosen.symm.trans harrange)
      exact ⟨chosen, fun parent hparent => hopen (hperm.mem_iff.mp hparent), h⟩
  obtain ⟨parents, hparents, h⟩ := hchosen
  refine ⟨parents, hparents, settleEach_of_foldlM ?_⟩
  obtain ⟨mid, hmid, hlast⟩ := bind_eq_ok_iff.mp h
  rw [List.foldlM_append]
  exact bind_eq_ok_iff.mpr ⟨mid, hmid, foldlM_cons_eq_ok_iff.mpr ⟨d', hlast, rfl⟩⟩

/-- Serving a path settles its tasks and some of their parents. -/
theorem settleEach_of_servePath (hprepared : Prepared w d) (hrec : w.Reciprocal)
    (h : servePath w bound d path = .ok d') :
    ∃ ids, d' = d.settleEach w ids ∧ path ⊆ ids ∧
      ∀ x ∈ ids, ∃ id ∈ path, x = id ∨ x ∈ w.parentsOf id := by
  unfold servePath at h
  induction path generalizing d with
  | nil =>
      exact ⟨[], (pure_eq_ok_iff.mp h).symm, List.nil_subset _,
        fun x hx => absurd hx List.not_mem_nil⟩
  | cons id rest ih =>
      obtain ⟨mid, hmid, hrest⟩ := foldlM_cons_eq_ok_iff.mp h
      obtain ⟨parents, hparents, hserve⟩ := settleEach_of_serveTask hprepared hrec hmid
      obtain ⟨ids, hids, hsub, hsource⟩ :=
        ih ((reaches_serveTask hmid).prepared hprepared) hrest
      refine ⟨parents ++ [id] ++ ids, ?_, ?_, fun x hx => ?_⟩
      · rw [settleEach_append, ← hserve, hids]
      · refine List.cons_subset.mpr ⟨?_, fun x hx => List.mem_append_right _ (hsub hx)⟩
        exact List.mem_append_left _ (List.mem_append_right _ List.mem_cons_self)
      · rw [List.append_assoc, List.mem_append, List.mem_append, List.mem_singleton] at hx
        obtain hx | hx | hx := hx
        · exact ⟨id, List.mem_cons_self, .inr (hparents hx)⟩
        · exact ⟨id, List.mem_cons_self, .inl hx⟩
        · obtain ⟨other, hother, hlink⟩ := hsource x hx
          exact ⟨other, List.mem_cons_of_mem id hother, hlink⟩

/-- What has been placed after a path: what was, and what its last task is or has for an ancestor,
since all that is settled leads up from the last task. -/
theorem mem_order_servePath (hprepared : Prepared w d) (hrec : w.Reciprocal)
    (hclosed : w.Closed d.order) (hpath : w.Descends path)
    (htasks : ∀ id ∈ path, w.contains id = true) (hne : path ≠ [])
    (h : servePath w bound d path = .ok d') (x : Int) :
    x ∈ d'.order ↔ x ∈ d.order ∨ w.Above path x := by
  obtain ⟨ids, rfl, hsub, hsource⟩ := settleEach_of_servePath hprepared hrec h
  have hleaf : path.getLast? = some (path.getLast hne) := List.getLast?_eq_some_getLast hne
  rw [mem_order_settleEach hprepared hrec hclosed, Workflow.above_iff_leads hleaf]
  refine or_congr_right ⟨?_, fun hleads => ?_⟩
  · intro ⟨other, hother, _, hleads⟩
    obtain ⟨id, hid, hlink⟩ := hsource other hother
    have hup : w.Leads [] (path.getLast hne) other := by
      have hid := hpath.leads hleaf id hid
      cases hlink with
      | inl heq => rwa [heq]
      | inr hparent => exact hid.tail ⟨hparent, List.not_mem_nil⟩
    exact hup.trans hleads
  · have hmem := List.getLast_mem hne
    exact ⟨path.getLast hne, hsub hmem, htasks _ hmem, hleads⟩

/-- A draft that has been reached from an empty one by placing tasks after all of their parents. -/
structure Standing (w : Workflow) (first d : Draft τ) : Prop where
  reaches : Reaches w first d
  closed : w.Closed d.order

/-- **One block**: a path adds its last task and the ancestors of it that have not been placed. -/
theorem exists_block {first : Draft τ} (hfirst : Prepared w first) (hrec : w.Reciprocal)
    (hd : Standing w first d) (hroute : w.Route path)
    (h : servePath w bound d path = .ok d') :
    Standing w first d' ∧ ∃ block, d'.order = d.order ++ block ∧
      ∀ x, x ∈ block ↔ w.Above path x ∧ x ∉ d.order := by
  have hne : path ≠ [] := by
    rintro rfl
    obtain ⟨root, -, hhead⟩ := hroute.start
    cases hhead
  have hmem := mem_order_servePath (hd.reaches.prepared hfirst) hrec hd.closed hroute.descends
    hroute.contains hne h
  have hreaches : Reaches w d d' := reaches_servePath h
  obtain ⟨block, horder, hfollows⟩ := hreaches.follows
  refine ⟨⟨hd.reaches.trans hreaches, fun child hchild parent hparent => ?_⟩, block, horder,
    fun x => ?_⟩
  · rw [hmem] at hchild ⊢
    cases hchild with
    | inl hplaced => exact .inl (hd.closed child hplaced parent hparent)
    | inr habove =>
        obtain ⟨leaf, hleaf, -⟩ := id habove
        rw [Workflow.above_iff_leads hleaf] at habove ⊢
        exact .inr (habove.tail ⟨hparent, List.not_mem_nil⟩)
  · have hnew := (Workflow.new_of_follows hfollows).2 x
    have hx := hmem x
    rw [horder, List.mem_append] at hx
    constructor
    · intro hblock
      exact ⟨(hx.mp (.inr hblock)).resolve_left (hnew hblock), hnew hblock⟩
    · intro ⟨habove, hout⟩
      exact (hx.mpr (.inr habove)).resolve_left hout

/-! ## all paths -/

/-- Paths are served in blocks behind what was placed: after any number of them just their blocks
have been placed, which hold their last tasks with all ancestors. -/
structure InBlocks (w : Workflow) (bound : Int) (d : Draft τ) (paths blocks : List (List Int)) :
    Prop where
  length : blocks.length = paths.length
  served : ∀ i ≤ paths.length, ∃ mid, (paths.take i).foldlM (servePath w bound) d = .ok mid ∧
    mid.order = d.order ++ (blocks.take i).flatten ∧
    ∀ x, x ∈ mid.order ↔ x ∈ d.order ∨ ∃ path ∈ paths.take i, w.Above path x
  block : ∀ (i : Nat) (path block : List Int), paths[i]? = some path → blocks[i]? = some block →
    ∀ x, x ∈ block ↔ w.Above path x ∧ x ∉ d.order ++ (blocks.take i).flatten

/-- **All blocks**: every path adds one. -/
theorem exists_blocks {first : Draft τ} (hfirst : Prepared w first) (hrec : w.Reciprocal)
    {paths : List (List Int)} (hroutes : ∀ path ∈ paths, w.Route path)
    (hd : Standing w first d) (h : paths.foldlM (servePath w bound) d = .ok d') :
    Standing w first d' ∧ ∃ blocks, InBlocks w bound d paths blocks := by
  induction paths generalizing d with
  | nil =>
      obtain rfl : d = d' := pure_eq_ok_iff.mp h
      refine ⟨hd, [], rfl, fun i _ => ⟨d, by simp [pure, Except.pure], by simp, by simp⟩, ?_⟩
      intro i path block hpath
      cases hpath
  | cons path rest ih =>
      obtain ⟨hroute, hroutes⟩ := List.forall_mem_cons.mp hroutes
      obtain ⟨next, hnext, hrest⟩ := foldlM_cons_eq_ok_iff.mp h
      obtain ⟨hstanding, block, horder, hblock⟩ := exists_block hfirst hrec hd hroute hnext
      obtain ⟨hlast, blocks, hblocks⟩ := ih hroutes hstanding hrest
      refine ⟨hlast, block :: blocks, congrArg (· + 1) hblocks.length, fun i hi => ?_, ?_⟩
      · cases i with
        | zero => exact ⟨d, rfl, by simp, by simp⟩
        | succ i =>
            obtain ⟨mid, hmid, hmidorder, hmem⟩ := hblocks.served i (Nat.le_of_succ_le_succ hi)
            refine ⟨mid, foldlM_cons_eq_ok_iff.mpr ⟨next, hnext, hmid⟩, ?_, fun x => ?_⟩
            · rw [hmidorder, horder, List.take_succ_cons, List.flatten_cons, List.append_assoc]
            · rw [hmem, horder, List.mem_append, hblock, List.take_succ_cons]
              simp only [List.mem_cons, exists_eq_or_imp]
              tauto
      · intro i other found hother hfound x
        cases i with
        | zero =>
            obtain rfl : path = other := Option.some.inj hother
            obtain rfl : block = found := Option.some.inj hfound
            rw [List.take_zero, List.flatten_nil, List.append_nil]
            exact hblock x
        | succ i =>
            rw [List.take_succ_cons, List.flatten_cons, ← List.append_assoc, ← horder]
            exact hblocks.block i other found hother hfound x

/-! ## a whole plan -/

/-- On an acyclic workflow every task is on a path. -/
theorem exists_path_of_acyclic (hrec : w.Reciprocal) (hacyclic : w.Acyclic)
    {paths : List (List Int)} (hpaths : w.paths = .ok paths) (hid : id ∈ w.ids) :
    ∃ path ∈ paths, id ∈ path := by
  have hchildren (t : Task) (ht : t ∈ w.tasks) (child : Int) (hchild : child ∈ t.children) :
      w.contains child = true := hrec.contains_child ht hchild
  obtain ⟨listed, hlisted, hfound⟩ := Workflow.exists_listed hchildren
  obtain ⟨rest, hlinks, hend⟩ := Workflow.exists_descent hrec hacyclic hid
  obtain ⟨path, hpath, hsub⟩ := Workflow.exists_rootToLeaf hrec hacyclic hid hlinks hend
  refine ⟨path, ?_, hsub List.mem_cons_self⟩
  rw [Except.ok.inj (hpaths.symm.trans hfound)]
  exact (Workflow.mem_listed_iff hchildren fun root hroot => (hlisted root hroot).1).mpr
    ⟨hpath, Workflow.nodup_of_links hrec hacyclic hpath.links⟩

/-- A plan in blocks: the paths are ranked by their costs, the costliest first, and each adds its
block; what is left when all of them are served is swept up at the end. -/
structure Served (w : Workflow) (bound : Int) (first : Draft τ) (paths : List (List Int))
    (p : Plan τ) (ranked blocks : List (List Int)) (swept : List Int) : Prop where
  ranking : first.rankPaths paths = .ok ranked
  sorted : (∀ path ∈ paths, IsNumber (first.pathTotal path)) →
    StablySorted (fun a b => decide (first.pathTotal b < first.pathTotal a)) paths ranked
  inBlocks : InBlocks w bound first ranked blocks
  order : p.order = blocks.flatten ++ swept
  sweep : ∀ x, x ∈ swept ↔ x ∈ w.ids ∧ ∀ path ∈ paths, ¬w.Above path x
  acyclic : w.Acyclic → swept = []

/-- On an acyclic workflow every task is the last one of a path or an ancestor of it. -/
theorem exists_above_of_acyclic (hrec : w.Reciprocal) (hacyclic : w.Acyclic)
    {paths : List (List Int)} (hpaths : w.paths = .ok paths) (hid : id ∈ w.ids) :
    ∃ path ∈ paths, w.Above path id := by
  obtain ⟨path, hpath, hmem⟩ := exists_path_of_acyclic hrec hacyclic hpaths hid
  have hleaf := List.getLast?_eq_some_getLast (List.ne_nil_of_mem hmem)
  refine ⟨path, hpath, (Workflow.above_iff_leads hleaf).mpr ?_⟩
  exact (Workflow.route_of_paths hrec hpaths hpath).descends.leads hleaf id hmem

/-- Serving a workflow from an empty draft places its tasks in blocks. -/
theorem served_of_serve {first last : Draft τ} (hfirst : Prepared w first)
    (hempty : first.placed = []) (hrec : w.Reciprocal) (h : serve w bound first = .ok last)
    (hids : last.order.Perm w.ids) {p : Plan τ} (hp : p.order = last.order) :
    ∃ paths ranked blocks swept, w.paths = .ok paths ∧
      (∀ path ∈ paths, first.pathCost path = .ok (first.pathTotal path)) ∧
      Served w bound first paths p ranked blocks swept := by
  unfold serve at h
  simp only [bind_eq_ok_iff] at h
  obtain ⟨paths, hpaths, ranked, hranked, mid, hmid, hlast⟩ := h
  have hroute (path : List Int) (hpath : path ∈ paths) : w.Route path :=
    Workflow.route_of_paths hrec hpaths hpath
  have hcost (path : List Int) (hpath : path ∈ paths) :
      first.pathCost path = .ok (first.pathTotal path) :=
    pathCost_eq fun id hid => hfirst.costOf ((hroute path hpath).contains id hid)
  have hperm : ranked.Perm paths := by
    obtain ⟨other, hother, hperm⟩ := hfirst.exists_rankPaths fun path hpath =>
      (hroute path hpath).contains
    rwa [Except.ok.inj (hranked.symm.trans hother)]
  have hnil : first.order = [] := by
    unfold Draft.order
    rw [hempty, List.map_nil]
  have hstanding : Standing w first first := by
    refine ⟨.refl, ?_⟩
    rw [hnil]
    exact fun child hchild => absurd hchild List.not_mem_nil
  obtain ⟨-, blocks, hblocks⟩ := exists_blocks hfirst hrec
    (fun path hpath => hroute path (hperm.mem_iff.mp hpath)) hstanding hmid
  obtain ⟨found, hfound, horder, hmem⟩ := hblocks.served ranked.length le_rfl
  rw [List.take_length] at hfound hmem
  obtain rfl : found = mid := Except.ok.inj (hfound.symm.trans hmid)
  rw [hnil, List.nil_append, ← hblocks.length, List.take_length] at horder
  obtain ⟨swept, hswept, hfollows⟩ := (reaches_foldlM_settled hlast).1.follows
  have hsweep (x : Int) : x ∈ swept ↔ x ∈ w.ids ∧ ∀ path ∈ paths, ¬w.Above path x := by
    have hx := hmem x
    rw [hnil] at hx
    have hnew := (Workflow.new_of_follows hfollows).2 x
    rw [← hids.mem_iff, hswept, List.mem_append]
    simp only [hperm.mem_iff, List.not_mem_nil, false_or] at hx
    constructor
    · intro hmem
      exact ⟨.inr hmem, fun path hpath habove => hnew hmem (hx.mpr ⟨path, hpath, habove⟩)⟩
    · intro ⟨hplaced, hnone⟩
      refine hplaced.resolve_left fun hmem => ?_
      obtain ⟨path, hpath, habove⟩ := hx.mp hmem
      exact hnone path hpath habove
  refine ⟨paths, ranked, blocks, swept, hpaths, hcost, hranked, fun hnum => ?_, hblocks, ?_, hsweep,
    fun hacyclic => ?_⟩
  · refine stablySorted_of_byPrice (fun path hpath => ?_) hnum hranked
    exact bind_eq_ok_iff.mpr ⟨_, hcost path hpath, rfl⟩
  · rw [hp, hswept, horder]
  · refine List.eq_nil_iff_forall_not_mem.mpr fun x hx => ?_
    obtain ⟨hid, hnone⟩ := (hsweep x).mp hx
    obtain ⟨path, hpath, habove⟩ := exists_above_of_acyclic hrec hacyclic hpaths hid
    exact hnone path hpath habove

/-- **Costlier paths first**: a plan places its tasks in blocks, each the last task of a path with
all of its ancestors that no costlier path has placed. -/
theorem served_of_build {hosts : List Host} {padding : Quantity} {p : Plan τ}
    (h : build τ w hosts bound padding = .ok p) :
    ∃ platform first paths ranked blocks swept, Platform.ofHosts τ hosts = .ok platform ∧
      Draft.start w platform padding = .ok first ∧ w.paths = .ok paths ∧
      (∀ path ∈ paths, first.pathCost path = .ok (first.pathTotal path)) ∧
      Served w bound first paths p ranked blocks swept := by
  obtain ⟨platform, first, last, hcheck, hhosts, hstart, hserve, hplan⟩ := steps_of_build h
  have hrec : w.Reciprocal := Workflow.check_eq_ok_iff.mp hcheck
  have hstarts := starts_of_start hstart
  have horder : p.order = last.order := by rw [hplan]; rfl
  have hids : last.order.Perm w.ids := by
    obtain ⟨_, _, _, hplanned⟩ := planned_of_build h
    exact horder ▸ hplanned.perm_order
  obtain ⟨paths, ranked, blocks, swept, hpaths, hcost, hserved⟩ := served_of_serve
    hstarts.prepared hstarts.placed hrec hserve hids horder
  exact ⟨platform, first, paths, ranked, blocks, swept, hhosts, hstart, hpaths, hcost, hserved⟩

/-- Two cycles: one has a way down to the leaves and one has none. -/
def estuary : Workflow where
  tasks := [
    { Task.make 1 1 1 none none with children := [4, 5] },
    { Task.make 2 1 1 none none with children := [4] },
    { Task.make 3 1 1 none none with parents := [6], children := [6, 4] },
    { Task.make 4 2 1 none none with parents := [1, 2, 3] },
    { Task.make 5 9 1 none none with parents := [1] },
    { Task.make 6 1 1 none none with parents := [3], children := [3] },
    { Task.make 7 1 1 none none with parents := [8], children := [8] },
    { Task.make 8 1 1 none none with parents := [7], children := [7] }]
  nodup_ids := by decide

/-- The draft that planning this workflow starts with, with a padding of one second. -/
def estuaryDraft : Draft Float where
  padding := 1
  costs := [(1, ⟨1, 0⟩), (2, ⟨1, 0⟩), (3, ⟨1, 0⟩), (4, ⟨2, 0⟩), (5, ⟨9, 0⟩), (6, ⟨1, 0⟩), (7, ⟨1, 0⟩),
    (8, ⟨1, 0⟩)]
  timeline := .empty
  placed := []

theorem start_estuary : (do start estuary (← Platform.ofHosts Float [loopHost]) 1) =
    .ok estuaryDraft := by decide +kernel

/-- The costly path to the fifth task is served first, then everything above the fourth one; the
cycle without a way down comes last. -/
theorem served_estuary :
    ∃ p ranked blocks swept, build Float estuary [loopHost] 3 1 = .ok p ∧
      p.order = [1, 5, 2, 6, 3, 4, 8, 7] ∧
      Served estuary 3 estuaryDraft [[1, 4], [1, 5], [2, 4]] p ranked blocks swept ∧
      StablySorted (fun a b => decide (estuaryDraft.pathTotal b < estuaryDraft.pathTotal a))
        [[1, 4], [1, 5], [2, 4]] ranked := by
  have horder : (build Float estuary [loopHost] 3 1).map (·.order) =
      .ok [1, 5, 2, 6, 3, 4, 8, 7] := by decide +kernel
  cases hbuild : build Float estuary [loopHost] 3 1 with
  | error fault =>
      rw [hbuild] at horder
      cases horder
  | ok p =>
      rw [hbuild] at horder
      obtain ⟨platform, first, paths, ranked, blocks, swept, hhosts, hstart, hpaths, -, hserved⟩ :=
        served_of_build hbuild
      obtain ⟨platform', hhosts', hstart'⟩ := bind_eq_ok_iff.mp start_estuary
      obtain rfl := Except.ok.inj (hhosts.symm.trans hhosts')
      obtain rfl := Except.ok.inj (hstart.symm.trans hstart')
      have hpaths' : estuary.paths = .ok [[1, 4], [1, 5], [2, 4]] := by decide +kernel
      obtain rfl := Except.ok.inj (hpaths.symm.trans hpaths')
      exact ⟨p, ranked, blocks, swept, rfl, Except.ok.inj horder, hserved,
        hserved.sorted (by decide +kernel)⟩

end Plan

end SharedLink
