import Mathlib.Data.List.Chain
import Mathlib.Data.List.Nodup
import SharedLink.Proofs.Cycles
import SharedLink.Proofs.Placement

/-!
# SharedLink.Proofs.Routes

What the paths of a workflow are.

In a checked workflow every path starts at a root and goes from parents to
children, and all of it can be looked up.  The other direction, that no path is
left out, is not needed for planning: tasks on no path are placed in the end.

* `exists_paths` — a checked workflow has its paths;
* `route_of_paths` — each of them leads from a root from parent to child.
-/

namespace SharedLink

namespace Workflow

/-- A task is found under its id. -/
theorem find?_of_mem {w : Workflow} {t : Task} (ht : t ∈ w.tasks) : w.find? t.id = some t := by
  have hid : w.contains t.id = true := List.contains_iff_mem.mpr (List.mem_map_of_mem ht)
  obtain ⟨u, hu⟩ := contains_iff_find?.mp hid
  rw [hu, List.inj_on_of_nodup_map w.nodup_ids (List.mem_of_find?_eq_some hu) ht (id_of_find? hu)]

/-- A listed child has the task for a parent. -/
theorem Reciprocal.child {w : Workflow} (h : w.Reciprocal) {t : Task} (ht : t ∈ w.tasks)
    {child : Int} (hchild : child ∈ t.children) : t.id ∈ w.parentsOf child := by
  obtain ⟨c, hc, hmem⟩ := (h t ht).2 child hchild
  rw [parentsOf_eq hc]
  exact hmem

/-- A parent is a task. -/
theorem Reciprocal.contains_parent {w : Workflow} (h : w.Reciprocal) {parent child : Int}
    (hp : parent ∈ w.parentsOf child) : w.contains parent = true := by
  obtain ⟨t, ht, rfl, -⟩ := h.parent hp
  exact List.contains_iff_mem.mpr (List.mem_map_of_mem ht)

/-- A listed child is a task. -/
theorem Reciprocal.contains_child {w : Workflow} (h : w.Reciprocal) {t : Task} (ht : t ∈ w.tasks)
    {child : Int} (hchild : child ∈ t.children) : w.contains child = true :=
  List.contains_iff_mem.mpr (mem_ids_of_parentsOf (h.child ht hchild))

/-- From parents to children. -/
def Descends (w : Workflow) (path : List Int) : Prop :=
  path.IsChain fun parent child => parent ∈ w.parentsOf child

/-- From a root from parents to children. -/
structure Route (w : Workflow) (path : List Int) : Prop where
  start : ∃ root ∈ w.roots, path.head? = some root.id
  descends : w.Descends path

/-- All tasks of a chain are tasks if its first one is. -/
theorem Descends.contains {w : Workflow} {path : List Int} (h : w.Descends path)
    (hhead : ∀ id, path.head? = some id → w.contains id = true) :
    ∀ id ∈ path, w.contains id = true := by
  induction h with
  | nil => exact fun id hid => absurd hid List.not_mem_nil
  | singleton id =>
      exact fun other hother => hhead other (congrArg some (List.mem_singleton.mp hother).symm)
  | @cons_cons id next rest hlink hrest ih =>
      intro other hother
      cases List.mem_cons.mp hother with
      | inl heq => exact hhead other (congrArg some heq.symm)
      | inr hother =>
          refine ih (fun first hfirst => ?_) other hother
          rw [← Option.some.inj hfirst]
          exact List.contains_iff_mem.mpr (mem_ids_of_parentsOf hlink)

/-- The first task of a path has no parents. -/
theorem Route.parentsOf_head {w : Workflow} {path : List Int} (h : w.Route path) {id : Int}
    (hid : path.head? = some id) : id ∈ w.ids ∧ w.parentsOf id = [] := by
  obtain ⟨root, hroot, hhead⟩ := h.start
  rw [hhead] at hid
  obtain rfl := Option.some.inj hid
  obtain ⟨hmem, hempty⟩ := List.mem_filter.mp hroot
  rw [parentsOf_eq (find?_of_mem hmem)]
  exact ⟨List.mem_map_of_mem hmem, List.isEmpty_iff.mp hempty⟩

theorem Route.contains {w : Workflow} {path : List Int} (h : w.Route path) :
    ∀ id ∈ path, w.contains id = true := by
  exact h.descends.contains fun id hid => List.contains_iff_mem.mpr (h.parentsOf_head hid).1

/-! ## paths from one task -/

/-- A path from a task starts there and leads from parents to children. -/
theorem descends_of_pathsFrom {w : Workflow} (hrec : w.Reciprocal) {fresh : List Int} {id : Int}
    {paths : List (List Int)} (h : w.pathsFrom fresh id = .ok paths) {path : List Int}
    (hpath : path ∈ paths) : path.head? = some id ∧ w.Descends path := by
  induction fresh, id using pathsFrom.induct w generalizing paths path with
  | case1 fresh id hfresh ih =>
      rw [pathsFrom, dif_pos hfresh] at h
      obtain ⟨t, hget, h⟩ := bind_eq_ok_iff.mp h
      have hfind : w.find? id = some t := get_eq_ok_iff.mp hget
      have hid : t.id = id := id_of_find? hfind
      split at h
      · rw [← Except.ok.inj h] at hpath
        rw [List.mem_singleton.mp hpath]
        exact ⟨rfl, .singleton id⟩
      · obtain ⟨below, hbelow, h⟩ := bind_eq_ok_iff.mp h
        rw [← Except.ok.inj h] at hpath
        obtain ⟨rest, hrest, rfl⟩ := List.mem_map.mp hpath
        obtain ⟨found, hfound, hrest⟩ := List.mem_flatten.mp hrest
        obtain ⟨child, hchild, hpaths⟩ := exists_source_of_mapM hbelow hfound
        obtain ⟨hhead, hdescends⟩ := ih child hpaths hrest
        refine ⟨rfl, ?_⟩
        cases rest with
        | nil => cases hhead
        | cons next rest =>
            have hlink : t.id ∈ w.parentsOf child :=
              hrec.child (List.mem_of_find?_eq_some hfind) hchild
            rw [hid, ← Option.some.inj hhead] at hlink
            exact .cons_cons hlink hdescends
  | case2 fresh id hfresh hid =>
      rw [pathsFrom, dif_neg hfresh, if_pos hid] at h
      rw [← Except.ok.inj h] at hpath
      cases hpath
  | case3 fresh id hfresh hid =>
      rw [pathsFrom, dif_neg hfresh, if_neg hid] at h
      cases h

/-- Paths from a task of a checked workflow never lead to what is no task. -/
theorem exists_pathsFrom {w : Workflow} (hrec : w.Reciprocal) (fresh : List Int) {id : Int}
    (hid : w.contains id = true) : ∃ paths, w.pathsFrom fresh id = .ok paths := by
  induction fresh, id using pathsFrom.induct w with
  | case1 fresh id hfresh ih =>
      obtain ⟨t, hfind⟩ := contains_iff_find?.mp hid
      have hbelow (child : Int) (hchild : child ∈ t.children) :
          ∃ paths, w.pathsFrom (fresh.erase id) child = .ok paths :=
        ih child (hrec.contains_child (List.mem_of_find?_eq_some hfind) hchild)
      rw [pathsFrom, dif_pos hfresh]
      simp only [bind_eq_ok_iff, get_eq_ok_iff]
      by_cases hleaf : t.children.isEmpty = true
      · exact ⟨[[id]], t, hfind, by rw [if_pos hleaf]; rfl⟩
      · obtain ⟨below, hbelow⟩ := exists_mapM hbelow
        refine ⟨below.flatten.map (id :: ·), t, hfind, ?_⟩
        rw [if_neg hleaf, bind_eq_ok_iff]
        exact ⟨below, hbelow, rfl⟩
  | case2 fresh id hfresh hid' => exact ⟨[], by rw [pathsFrom, dif_neg hfresh, if_pos hid]; rfl⟩
  | case3 fresh id hfresh hid' => exact absurd hid hid'

/-! ## all paths -/

/-- **Routes**: every path of a checked workflow leads from a root from parent to child. -/
theorem route_of_paths {w : Workflow} (hrec : w.Reciprocal) {paths : List (List Int)}
    (h : w.paths = .ok paths) {path : List Int} (hpath : path ∈ paths) : w.Route path := by
  unfold Workflow.paths at h
  obtain ⟨perRoot, hroots, h⟩ := bind_eq_ok_iff.mp h
  rw [← Except.ok.inj h] at hpath
  obtain ⟨found, hfound, hpath⟩ := List.mem_flatten.mp hpath
  obtain ⟨root, hroot, hpaths⟩ := exists_source_of_mapM hroots hfound
  obtain ⟨hhead, hdescends⟩ := descends_of_pathsFrom hrec hpaths hpath
  exact ⟨⟨root, hroot, hhead⟩, hdescends⟩

/-- A checked workflow has its paths. -/
theorem exists_paths {w : Workflow} (hrec : w.Reciprocal) : ∃ paths, w.paths = .ok paths := by
  have hroot (root : Task) (hroot : root ∈ w.roots) :
      ∃ paths, w.pathsFrom w.ids root.id = .ok paths :=
    exists_pathsFrom hrec w.ids
      (List.contains_iff_mem.mpr (List.mem_map_of_mem (List.mem_filter.mp hroot).1))
  obtain ⟨perRoot, hperRoot⟩ := exists_mapM hroot
  exact ⟨perRoot.flatten, bind_eq_ok_iff.mpr ⟨perRoot, hperRoot, rfl⟩⟩

end Workflow

end SharedLink
