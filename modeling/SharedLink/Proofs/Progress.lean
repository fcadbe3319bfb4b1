import SharedLink.Proofs.Routes
import SharedLink.Proofs.Trials

/-!
# SharedLink.Proofs.Progress

Why serving cannot fail.

In a checked workflow a walk to the ancestors of a task never meets an id that is no
task, and so never gets stuck.  Together with the fact that a known task always
fits, every step of serving a workflow succeeds, cyclic or not, and in whatever
order paths and parents come.

* `stuck_ancestry` — a walk is never stuck;
* `exists_settled` — a task can always be settled;
* `exists_serve` — a checked workflow can always be served.
-/

namespace SharedLink

/-! ## walks -/

namespace Workflow

/-- Where every parent is a task, one parent does not stop a walk. -/
theorem stuck_advance {w : Workflow} {fresh : List Int} {walk : Walk} {parent : Int}
    (hparent : w.contains parent = true) (hwalk : walk.stuck = none)
    (hvisit : parent ∈ fresh → (w.visit (fresh.erase parent) parent walk).stuck = none) :
    (w.advance fresh walk parent).stuck = none := by
  unfold advance
  split
  · exact hwalk
  · split
    · next hfresh => exact hvisit hfresh
    · exact hwalk

/-- Nor does a visit. -/
theorem stuck_visit {w : Workflow} (hrec : w.Reciprocal) (fresh : List Int) (id : Int)
    (walk : Walk) (hwalk : walk.stuck = none) : (w.visit fresh id walk).stuck = none := by
  induction fresh, id, walk using visit_induction w with
  | step fresh id walk ih =>
      have habove : ((w.parentsOf id).foldl (w.advance fresh) walk).stuck = none := by
        refine List.foldlRecOn (motive := fun walk : Walk => walk.stuck = none) _ _ hwalk ?_
        intro walk hwalk parent hparent
        refine stuck_advance (hrec.contains_parent hparent) hwalk fun hfresh => ?_
        exact ih walk parent hfresh hwalk
      rw [visit_eq]
      dsimp only
      split
      · exact habove
      · exact habove

/-- **Walks**: in a checked workflow the walk to a task is not stuck. -/
theorem stuck_ancestry {w : Workflow} (hrec : w.Reciprocal) (order : List Int) {id : Int}
    (hid : w.contains id = true) : (w.ancestry order id).stuck = none := by
  unfold ancestry
  split
  · rfl
  · exact stuck_visit hrec _ id ⟨order, none⟩ rfl

end Workflow

open Timescale

variable {τ : Type} [Timescale τ] [Arithmetic τ] {w : Workflow}

/-! ## placing and settling -/

namespace Draft

variable {d : Draft τ}

/-- A known task can be placed. -/
theorem Prepared.exists_place (h : Prepared w d) {id : Int} (hid : w.contains id = true) :
    ∃ d', d.place w id = .ok d' := by
  obtain ⟨slot, line, hfit⟩ := h.exists_fit hid d.endOf? d.timeline
  exact ⟨{ d with timeline := line, placed := d.placed ++ [(id, slot)] },
    bind_eq_ok_iff.mpr ⟨(slot, line), hfit, rfl⟩⟩

/-- So can any number of them. -/
theorem Prepared.placeAll (h : Prepared w d) {ids : List Int}
    (hids : ∀ id ∈ ids, w.contains id = true) : (d.placeAll w ids).2 = none := by
  induction ids generalizing d with
  | nil => rfl
  | cons id rest ih =>
      obtain ⟨hid, hrest⟩ := List.forall_mem_cons.mp hids
      obtain ⟨d', hd'⟩ := h.exists_place hid
      unfold Draft.placeAll
      rw [hd']
      exact ih (h.place hd') hrest

/-- **Settling**: a task of a checked workflow can be settled. -/
theorem Prepared.exists_settled (h : Prepared w d) (hrec : w.Reciprocal) {id : Int}
    (hid : w.contains id = true) : ∃ d', settled w d id = .ok d' ∧ Prepared w d' := by
  obtain ⟨new, horder, hfollows, -⟩ := w.follows_ancestry d.order id
  have hwalk : w.ancestry d.order id = ⟨d.order ++ new, none⟩ := by
    rw [← horder, ← Workflow.stuck_ancestry hrec d.order hid]
  have hplaced : d.placeAll w new = ((d.placeAll w new).1, none) :=
    Prod.ext rfl (h.placeAll (Workflow.contains_of_follows hfollows))
  have hsettled : settled w d id = .ok (d.placeAll w new).1 := by
    unfold settled
    rw [settle_eq hwalk, hplaced]
  exact ⟨_, hsettled, h.of_placeAll hplaced⟩

theorem Prepared.exists_foldlM_settled (h : Prepared w d) (hrec : w.Reciprocal) {ids : List Int}
    (hids : ∀ id ∈ ids, w.contains id = true) :
    ∃ d', ids.foldlM (settled w) d = .ok d' ∧ Prepared w d' :=
  exists_foldlM (Prepared w) (fun _ hd id hid => hd.exists_settled hrec (hids id hid)) h

omit [Arithmetic τ] in
/-- A path of known tasks has a cost, the sum of what its tasks cost. -/
theorem Prepared.exists_pathCost (h : Prepared w d) {path : List Int}
    (hpath : ∀ id ∈ path, w.contains id = true) :
    ∃ totals, List.Forall₂ (fun id total => ∃ cost, d.costOf id = .ok cost ∧ cost.total = total)
      path totals ∧ d.pathCost path = .ok (totals.foldl (· + ·) 0) := by
  have htotal (id : Int) (hid : id ∈ path) :
      ∃ total, (do return (← d.costOf id).total : Except Fault τ) = .ok total := by
    obtain ⟨cost, hcost⟩ := h.costOf (hpath id hid)
    exact ⟨cost.total, bind_eq_ok_iff.mpr ⟨cost, hcost, rfl⟩⟩
  obtain ⟨totals, htotals⟩ := exists_mapM htotal
  refine ⟨totals, (mapM_eq_ok_iff.mp htotals).imp fun id total hid => ?_,
    bind_eq_ok_iff.mpr ⟨totals, htotals, rfl⟩⟩
  obtain ⟨cost, hcost, hid⟩ := bind_eq_ok_iff.mp hid
  exact ⟨cost, hcost, Except.ok.inj hid⟩

omit [Arithmetic τ] in
/-- Paths of known tasks can be put in the order of their costs. -/
theorem Prepared.exists_rankPaths (h : Prepared w d) {paths : List (List Int)}
    (hpaths : ∀ path ∈ paths, ∀ id ∈ path, w.contains id = true) :
    ∃ ranked, d.rankPaths paths = .ok ranked ∧ ranked.Perm paths := by
  refine exists_byPrice fun path hpath => ?_
  obtain ⟨totals, -, hcost⟩ := h.exists_pathCost (hpaths path hpath)
  exact ⟨_, bind_eq_ok_iff.mpr ⟨_, hcost, rfl⟩⟩

end Draft

/-! ## serving -/

namespace Plan

open Draft

variable {d : Draft τ}

/-- A task can be served, in whatever order its open parents are settled. -/
theorem exists_serveTask (h : Prepared w d) (hrec : w.Reciprocal) (bound : Int) {id : Int}
    (hid : w.contains id = true) : ∃ d', serveTask w bound d id = .ok d' ∧ Prepared w d' := by
  obtain ⟨t, ht⟩ := Workflow.contains_iff_find?.mp hid
  have hopen (parent : Int) (hparent : parent ∈ openParents d t) : w.contains parent = true := by
    have hlisted : parent ∈ w.parentsOf id := by
      rw [Workflow.parentsOf_eq ht]
      exact (List.mem_filter.mp hparent).1
    exact hrec.contains_parent hlisted
  have hsettle (parents : List Int) (hparents : parents.Perm (openParents d t)) :
      ∃ d', (parents.foldlM (settled w) d >>= fun d => settled w d id) = .ok d' ∧
        Prepared w d' := by
    obtain ⟨mid, hmid, hprepared⟩ := h.exists_foldlM_settled hrec fun parent hparent =>
      hopen parent (hparents.mem_iff.mp hparent)
    obtain ⟨d', hd', hprepared'⟩ := hprepared.exists_settled hrec hid
    exact ⟨d', bind_eq_ok_iff.mpr ⟨mid, hmid, hd'⟩, hprepared'⟩
  by_cases hfew : (openParents d t).length ≤ 1
  · obtain ⟨d', hd', hprepared⟩ := hsettle (openParents d t) (.refl _)
    refine ⟨d', bind_eq_ok_iff.mpr ⟨t, Workflow.get_eq_ok_iff.mpr ht, ?_⟩, hprepared⟩
    dsimp only
    rw [if_pos hfew]
    exact hd'
  · obtain ⟨parents, harrange, hperm⟩ := h.exists_arrange bound hopen
    obtain ⟨d', hd', hprepared⟩ := hsettle parents hperm
    refine ⟨d', bind_eq_ok_iff.mpr ⟨t, Workflow.get_eq_ok_iff.mpr ht, ?_⟩, hprepared⟩
    dsimp only
    rw [if_neg hfew]
    exact bind_eq_ok_iff.mpr ⟨parents, harrange, hd'⟩

/-- So can the tasks of a path. -/
theorem exists_servePath (h : Prepared w d) (hrec : w.Reciprocal) (bound : Int) {path : List Int}
    (hpath : ∀ id ∈ path, w.contains id = true) :
    ∃ d', servePath w bound d path = .ok d' ∧ Prepared w d' :=
  exists_foldlM (Prepared w) (fun _ hd id hid => exists_serveTask hd hrec bound (hpath id hid)) h

/-- **Serving**: a checked workflow can be served. -/
theorem exists_serve (h : Prepared w d) (hrec : w.Reciprocal) (bound : Int) :
    ∃ d', serve w bound d = .ok d' := by
  obtain ⟨paths, hpaths⟩ := Workflow.exists_paths hrec
  have htasks (path : List Int) (hpath : path ∈ paths) : ∀ id ∈ path, w.contains id = true :=
    (Workflow.route_of_paths hrec hpaths hpath).contains
  obtain ⟨ranked, hranked, hperm⟩ := h.exists_rankPaths htasks
  obtain ⟨mid, hmid, hprepared⟩ := exists_foldlM (Prepared w)
    (fun _ hd path hpath => exists_servePath hd hrec bound (htasks path (hperm.mem_iff.mp hpath))) h
  obtain ⟨d', hd', -⟩ := hprepared.exists_foldlM_settled hrec fun id (hid : id ∈ w.ids) =>
    List.contains_iff_mem.mpr hid
  refine ⟨d', ?_⟩
  unfold serve
  simp only [bind_eq_ok_iff]
  exact ⟨paths, hpaths, ranked, hranked, mid, hmid, hd'⟩

end Plan

end SharedLink
