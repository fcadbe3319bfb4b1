import Mathlib.Data.Finset.Basic
import Mathlib.Logic.Relation
import SharedLink.Proofs.Routes

/-!
# SharedLink.Proofs.Backtracking

Listing paths with an explicit stack.

The paths from a task on can be listed turn by turn instead, without recursion: along
with the path so far there are, for each of its tasks, the children that have not been
tried, and the path a second time as a set.  One turn takes up the next child of the last
task unless it is on the path, or leaves the last task if none is left.

* `Backtrack.turn` — one turn;
* `turns_row`, `turns_of_pathsFrom` — the turns behind some children, and behind one task;
* `turns_of_root` — the turns from a root on come to an end, with its paths behind the others.
-/

namespace SharedLink

namespace Workflow

/-- The children to be tried, those of the last task first, the path, its tasks as a set,
and the paths found so far. -/
structure Backtrack where
  untried : List (List Int)
  path : List Int
  onPath : Finset Int
  found : List (List Int)
deriving DecidableEq

/-- One turn, unless nothing is left to be tried. -/
def Backtrack.turn (w : Workflow) (s : Backtrack) : Option (Except Fault Backtrack) :=
  match s.untried with
  | [] => none
  | [] :: below => some (.ok { s with
      untried := below
      path := s.path.dropLast
      onPath := match s.path.getLast? with
        | some id => s.onPath.erase id
        | none => s.onPath })
  | (id :: rest) :: below =>
    if id ∈ s.onPath then some (.ok { s with untried := rest :: below })
    else some do
      let t ← w.get id
      let path := s.path ++ [id]
      return {
        untried := t.children :: rest :: below
        path := path
        onPath := insert id s.onPath
        found := if t.children.isEmpty then s.found ++ [path] else s.found }

/-- One turn after the other, none of which fails. -/
def Backtracks (w : Workflow) : Backtrack → Backtrack → Prop :=
  Relation.ReflTransGen fun s s' => s.turn w = some (.ok s')

variable {w : Workflow} {id : Int} {t : Task} {fresh path rest : List Int}
  {below found : List (List Int)} {onPath : Finset Int}

/-! ## single turns -/

/-- What is on the path is passed over. -/
theorem turn_onPath (hid : id ∈ onPath) :
    Backtrack.turn w ⟨(id :: rest) :: below, path, onPath, found⟩ =
      some (.ok ⟨rest :: below, path, onPath, found⟩) := by
  unfold Backtrack.turn
  exact if_pos hid

/-- Any other child is taken up; without children it ends a path. -/
theorem turn_takeUp (hid : id ∉ onPath) (hfind : w.find? id = some t) :
    Backtrack.turn w ⟨(id :: rest) :: below, path, onPath, found⟩ =
      some (.ok ⟨t.children :: rest :: below, path ++ [id], insert id onPath,
        if t.children.isEmpty then found ++ [path ++ [id]] else found⟩) := by
  unfold Backtrack.turn
  dsimp only
  rw [if_neg hid, get_eq_ok_iff.mpr hfind]
  rfl

/-- The last task is left when all of its children have been tried. -/
theorem turn_leave (hid : id ∉ onPath) :
    Backtrack.turn w ⟨[] :: below, path ++ [id], insert id onPath, found⟩ =
      some (.ok ⟨below, path, onPath, found⟩) := by
  unfold Backtrack.turn
  dsimp only
  rw [List.dropLast_concat, List.getLast?_concat]
  dsimp only
  rw [Finset.erase_insert hid]

/-! ## turns in a row -/

/-- Turns try some children one after the other; `hrow` is what they do about each. -/
theorem turns_row {children : List Int} {listed : List (List (List Int))}
    (hrow : List.Forall₂ (fun child paths => ∀ rest found,
      w.Backtracks ⟨(child :: rest) :: below, path, onPath, found⟩
        ⟨rest :: below, path, onPath, found ++ paths.map (path ++ ·)⟩) children listed)
    (found : List (List Int)) :
    w.Backtracks ⟨children :: below, path, onPath, found⟩
      ⟨[] :: below, path, onPath, found ++ listed.flatten.map (path ++ ·)⟩ := by
  induction hrow generalizing found with
  | nil =>
      rw [List.flatten_nil, List.map_nil, List.append_nil]
      exact .refl
  | @cons child paths children listed hchild hrest ih =>
      rw [List.flatten_cons, List.map_append, ← List.append_assoc]
      exact (hchild children found).trans (ih _)

/-- **Turns from a task on**: what is marked as on the path is what may not be entered.  Then
turns find the paths from the next child on, behind what they have found and behind the
path so far, and go on to the children after it. -/
theorem turns_of_pathsFrom {paths : List (List Int)} (hnodup : fresh.Nodup)
    (hmarks : ∀ x, w.contains x = true → (x ∈ onPath ↔ x ∉ fresh))
    (h : w.pathsFrom fresh id = .ok paths) (rest : List Int) (found : List (List Int)) :
    w.Backtracks ⟨(id :: rest) :: below, path, onPath, found⟩
      ⟨rest :: below, path, onPath, found ++ paths.map (path ++ ·)⟩ := by
  induction fresh, id using pathsFrom.induct w
    generalizing paths rest found below path onPath with
  | case1 fresh id hfresh ih =>
      rw [pathsFrom, dif_pos hfresh] at h
      obtain ⟨t, hget, h⟩ := bind_eq_ok_iff.mp h
      have hfind : w.find? id = some t := get_eq_ok_iff.mp hget
      have hid : id ∉ onPath := fun hmem =>
        (hmarks id (contains_iff_find?.mpr ⟨t, hfind⟩)).mp hmem hfresh
      refine .head (turn_takeUp hid hfind) ?_
      by_cases hleaf : t.children.isEmpty = true
      · rw [if_pos hleaf] at h ⊢
        rw [← Except.ok.inj h, List.isEmpty_iff.mp hleaf]
        exact .single (turn_leave hid)
      · rw [if_neg hleaf] at h ⊢
        obtain ⟨listed, hlisted, h⟩ := bind_eq_ok_iff.mp h
        have hmarks' (x : Int) (hx : w.contains x = true) :
            x ∈ insert id onPath ↔ x ∉ fresh.erase id := by
          rw [Finset.mem_insert, hnodup.mem_erase_iff, hmarks x hx]
          tauto
        have hrow : List.Forall₂ (fun child paths => ∀ after found,
            w.Backtracks ⟨(child :: after) :: rest :: below, path ++ [id], insert id onPath, found⟩
              ⟨after :: rest :: below, path ++ [id], insert id onPath,
                found ++ paths.map ((path ++ [id]) ++ ·)⟩) t.children listed :=
          (mapM_eq_ok_iff.mp hlisted).imp fun {child _} hchild after found =>
            ih child (hnodup.erase id) hmarks' hchild after found
        refine (turns_row hrow found).tail ((turn_leave hid).trans ?_)
        rw [← Except.ok.inj h, List.map_map]
        simp only [Function.comp_def, List.append_assoc, List.singleton_append]
  | case2 fresh id hfresh hid =>
      rw [pathsFrom, dif_neg hfresh, if_pos hid] at h
      rw [← Except.ok.inj h, List.map_nil, List.append_nil]
      exact .single (turn_onPath ((hmarks id hid).mpr hfresh))
  | case3 fresh id hfresh hid =>
      rw [pathsFrom, dif_neg hfresh, if_neg hid] at h
      cases h

/-- **Turns from a root on**: with nothing else to be tried they come to an end, and find just
the paths from the root on. -/
theorem turns_of_root {paths : List (List Int)} (h : w.pathsFrom w.ids id = .ok paths)
    (found : List (List Int)) :
    w.Backtracks ⟨[[id]], [], ∅, found⟩ ⟨[], [], ∅, found ++ paths⟩ := by
  have hmarks (x : Int) (hx : w.contains x = true) : x ∈ (∅ : Finset Int) ↔ x ∉ w.ids :=
    iff_of_false (Finset.notMem_empty x) (not_not.mpr (List.contains_iff_mem.mp hx))
  have hturns : w.Backtracks ⟨[[id]], [], ∅, found⟩ ⟨[[]], [], ∅, found ++ paths.map ([] ++ ·)⟩ :=
    turns_of_pathsFrom w.nodup_ids hmarks h [] found
  simp only [List.nil_append, List.map_id'] at hturns
  exact hturns.tail rfl

end Workflow

end SharedLink
