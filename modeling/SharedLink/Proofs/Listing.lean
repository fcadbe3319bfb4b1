import Mathlib.Data.List.Lex
import Mathlib.Order.WellFoundedSet
import SharedLink.Proofs.Backtracking
import SharedLink.Proofs.Construction

/-!
# SharedLink.Proofs.Listing

Which paths are listed, and in which order.

A path from a task on is a choice of children: at each task the place of the next one in
the list of children.  Choices, not paths, are what is listed once each, for a child that
is listed twice can be chosen twice, and choices have an order, by their places from the
first on.  The search never enters a task that is on the path, so that whatever cycles
there are it lists the choices without a repetition, and of these it misses none.

* `Trail`, `Lists` — the paths that count, and all choices of children that lead to them;
* `lists_branches` — from the children of a task to the task;
* `exists_lists` — what is listed from one task on;
* `exists_descent`, `exists_rootToLeaf` — without cycles every task is on some path;
* `enumerates_paths` — what is listed of a whole workflow.
-/

namespace SharedLink

namespace Workflow

/-! ## choices of children -/

/-- The tasks that are met from a task on by taking, at each of them, the child at the next
of some places, if there are all these children. -/
def follow? (w : Workflow) : List Nat → Int → Option (List Int)
  | [], id => some [id]
  | place :: places, id => do
    let child ← (w.childrenOf id)[place]?
    return id :: (← w.follow? places child)

/-- Within `fresh`, without a repetition, down to a task without children. -/
structure Trail (w : Workflow) (fresh path : List Int) : Prop where
  within : path ⊆ fresh
  nodup : path.Nodup
  ends : ∃ leaf, path.getLast? = some leaf ∧ w.childrenOf leaf = []

/-- A list has every choice of children from a task on that leads to a path of `p`, each once
and with its path, by the places of the children. -/
structure Lists (w : Workflow) (p : List Int → Prop) (id : Int)
    (listed : List (List Nat × List Int)) : Prop where
  ordered : listed.Pairwise fun a b => a.1 < b.1
  mem_iff : ∀ places path, (places, path) ∈ listed ↔ w.follow? places id = some path ∧ p path

variable {w : Workflow} {id : Int} {fresh path : List Int} {place : Nat} {places : List Nat}

theorem follow?_cons_eq_some_iff : w.follow? (place :: places) id = some path ↔
    ∃ child, (w.childrenOf id)[place]? = some child ∧
      ∃ rest, w.follow? places child = some rest ∧ id :: rest = path := by
  simp only [follow?, Option.bind_eq_bind, Option.bind_eq_some_iff, Option.pure_def,
    Option.some.injEq]

/-- Whatever is chosen, the first task that is met is the one to start from. -/
theorem head?_of_follow? (h : w.follow? places id = some path) : path.head? = some id := by
  cases places with
  | nil =>
      rw [← Option.some.inj h]
      rfl
  | cons place places =>
      obtain ⟨child, -, rest, -, rfl⟩ := follow?_cons_eq_some_iff.mp h
      rfl

/-- In front of a path that goes on, a new task makes a trail of a trail. -/
theorem trail_cons_iff (hnodup : fresh.Nodup) (hid : id ∈ fresh) (hpath : path ≠ []) :
    w.Trail fresh (id :: path) ↔ w.Trail (fresh.erase id) path := by
  have hlast : (id :: path).getLast? = path.getLast? := by
    cases path with
    | nil => exact absurd rfl hpath
    | cons next rest => exact List.getLast?_cons_cons
  constructor
  · intro h
    obtain ⟨hnew, hrest⟩ := List.nodup_cons.mp h.nodup
    refine ⟨fun x hx => ?_, hrest, by rw [← hlast]; exact h.ends⟩
    rw [hnodup.mem_erase_iff]
    exact ⟨fun heq => hnew (heq ▸ hx), h.within (List.mem_cons_of_mem id hx)⟩
  · intro h
    refine ⟨List.cons_subset.mpr ⟨hid, List.Subset.trans h.within List.erase_subset⟩, ?_, by
      rw [hlast]; exact h.ends⟩
    refine List.nodup_cons.mpr ⟨fun hmem => ?_, h.nodup⟩
    exact (hnodup.mem_erase_iff.mp (h.within hmem)).1 rfl

theorem childrenOf_of_mem {t : Task} (ht : t ∈ w.tasks) : w.childrenOf t.id = t.children :=
  childrenOf_eq (find?_of_mem ht)

/-- The children that are listed for an id are those of its task. -/
theorem mem_childrenOf_iff {child : Int} :
    child ∈ w.childrenOf id ↔ ∃ t ∈ w.tasks, t.id = id ∧ child ∈ t.children := by
  constructor
  · intro hchild
    obtain ⟨t, ht, rfl⟩ := List.mem_map.mp (mem_ids_of_childrenOf hchild)
    rw [childrenOf_of_mem ht] at hchild
    exact ⟨t, ht, rfl, hchild⟩
  · rintro ⟨t, ht, rfl, hchild⟩
    rwa [childrenOf_of_mem ht]

theorem nodup_childrenOf (hchildren : ∀ t ∈ w.tasks, t.children.Nodup) (id : Int) :
    (w.childrenOf id).Nodup := by
  unfold childrenOf
  cases hfind : w.find? id with
  | none => exact .nil
  | some t => exact hchildren t (List.mem_of_find?_eq_some hfind)

/-! ## the listing from one task on -/

/-- Outside of `fresh` no trail starts. -/
theorem lists_of_not_mem (hid : id ∉ fresh) : w.Lists (w.Trail fresh) id [] where
  ordered := .nil
  mem_iff places path := by
    refine iff_of_false List.not_mem_nil fun ⟨hfollow, htrail⟩ => hid (htrail.within ?_)
    exact List.mem_of_mem_head? (head?_of_follow? hfollow)

/-- From a task without children on there is just the path that ends there. -/
theorem lists_of_leaf (hid : id ∈ fresh) (hleaf : w.childrenOf id = []) :
    w.Lists (w.Trail fresh) id [([], [id])] where
  ordered := List.pairwise_singleton _ _
  mem_iff places path := by
    rw [List.mem_singleton, Prod.mk.injEq]
    constructor
    · rintro ⟨rfl, rfl⟩
      exact ⟨rfl, List.cons_subset.mpr ⟨hid, List.nil_subset fresh⟩, List.nodup_singleton id,
        id, rfl, hleaf⟩
    · intro ⟨hfollow, _⟩
      cases places with
      | nil => exact ⟨rfl, (Option.some.inj hfollow).symm⟩
      | cons place places =>
          obtain ⟨child, hchild, -⟩ := follow?_cons_eq_some_iff.mp hfollow
          rw [hleaf, List.getElem?_nil] at hchild
          cases hchild

/-- What is listed from each of some children on, listed from their parent on. -/
def branches (id : Int) (children : List Int) (listed : Int → List (List Nat × List Int)) :
    List (List Nat × List Int) :=
  children.zipIdx.flatMap fun (child, place) =>
    (listed child).map fun (places, path) => (place :: places, id :: path)

theorem mem_branches_iff {children : List Int} {listed : Int → List (List Nat × List Int)} :
    (places, path) ∈ branches id children listed ↔ ∃ child place, children[place]? = some child ∧
      ∃ after rest, (after, rest) ∈ listed child ∧ place :: after = places ∧ id :: rest = path := by
  simp only [branches, List.mem_flatMap, List.mem_map, Prod.exists, Prod.mk.injEq,
    List.mk_mem_zipIdx_iff_getElem?]

/-- The paths of all branches are those of the children, in a row. -/
theorem map_snd_branches (id : Int) (children : List Int)
    (listed : Int → List (List Nat × List Int)) :
    (branches id children listed).map (·.2) =
      (children.map fun child => (listed child).map (·.2)).flatten.map (id :: ·) := by
  calc (branches id children listed).map (·.2)
      = children.zipIdx.flatMap fun r => ((listed r.1).map (·.2)).map (id :: ·) := by
        unfold branches
        simp only [List.map_flatMap, List.map_map]
        rfl
    _ = (children.zipIdx.map (·.1)).flatMap fun child =>
          ((listed child).map (·.2)).map (id :: ·) := by rw [List.flatMap_map]
    _ = _ := by
        rw [List.zipIdx_map_fst, List.flatMap_def, List.map_flatten, List.map_map]
        rfl

theorem ordered_branches {children : List Int} {listed : Int → List (List Nat × List Int)}
    (h : ∀ child ∈ children, (listed child).Pairwise fun a b => a.1 < b.1) :
    (branches id children listed).Pairwise fun a b => a.1 < b.1 := by
  have hplaces : children.zipIdx.Pairwise fun a b => a.2 < b.2 := by
    rw [← List.pairwise_map, List.zipIdx_map_snd]
    exact List.pairwise_lt_range'
  unfold branches
  rw [List.pairwise_flatMap]
  refine ⟨fun r hr => ?_, hplaces.imp fun {r s} hlt => ?_⟩
  · rw [List.pairwise_map]
    exact (h r.1 (List.fst_mem_of_mem_zipIdx hr)).imp fun hlt => List.Lex.cons hlt
  · intro x hx y hy
    obtain ⟨_, -, rfl⟩ := List.mem_map.mp hx
    obtain ⟨_, -, rfl⟩ := List.mem_map.mp hy
    exact List.Lex.rel hlt

/-- From a task with children on, what is listed from these children on is all that there is. -/
theorem lists_branches (hnodup : fresh.Nodup) (hid : id ∈ fresh) (hinner : w.childrenOf id ≠ [])
    {listed : Int → List (List Nat × List Int)}
    (h : ∀ child ∈ w.childrenOf id, w.Lists (w.Trail (fresh.erase id)) child (listed child)) :
    w.Lists (w.Trail fresh) id (branches id (w.childrenOf id) listed) where
  ordered := ordered_branches fun child hchild => (h child hchild).ordered
  mem_iff places path := by
    have hne {places : List Nat} {child : Int} {rest : List Int}
        (hrest : w.follow? places child = some rest) : rest ≠ [] := by
      intro hnil
      have hhead := head?_of_follow? hrest
      rw [hnil] at hhead
      cases hhead
    rw [mem_branches_iff]
    constructor
    · rintro ⟨child, place, hchild, after, rest, hmem, rfl, rfl⟩
      obtain ⟨hrest, htrail⟩ := ((h child (List.mem_of_getElem? hchild)).mem_iff _ _).mp hmem
      exact ⟨follow?_cons_eq_some_iff.mpr ⟨child, hchild, rest, hrest, rfl⟩,
        (trail_cons_iff hnodup hid (hne hrest)).mpr htrail⟩
    · intro ⟨hfollow, htrail⟩
      cases places with
      | nil =>
          obtain ⟨leaf, hlast, hleaf⟩ := htrail.ends
          rw [← Option.some.inj hfollow] at hlast
          rw [← Option.some.inj hlast] at hleaf
          exact absurd hleaf hinner
      | cons place after =>
          obtain ⟨child, hchild, rest, hrest, rfl⟩ := follow?_cons_eq_some_iff.mp hfollow
          refine ⟨child, place, hchild, after, rest, ?_, rfl, rfl⟩
          exact ((h child (List.mem_of_getElem? hchild)).mem_iff _ _).mpr
            ⟨hrest, (trail_cons_iff hnodup hid (hne hrest)).mp htrail⟩

/-- **The listing from one task on**: where all children are tasks, the paths from a task on are
those of all choices of children that make a trail, in the order of the choices. -/
theorem exists_lists (hchildren : ∀ t ∈ w.tasks, ∀ child ∈ t.children, w.contains child = true)
    (hnodup : fresh.Nodup) (hid : w.contains id = true) :
    ∃ listed, w.Lists (w.Trail fresh) id listed ∧
      w.pathsFrom fresh id = .ok (listed.map (·.2)) := by
  induction fresh, id using pathsFrom.induct w with
  | case1 fresh id hfresh ih =>
      obtain ⟨t, hfind⟩ := contains_iff_find?.mp hid
      have hlinks : w.childrenOf id = t.children := childrenOf_eq hfind
      rw [pathsFrom, dif_pos hfresh]
      simp only [bind_eq_ok_iff, get_eq_ok_iff]
      by_cases hleaf : t.children.isEmpty = true
      · refine ⟨_, lists_of_leaf hfresh ?_, t, hfind, by rw [if_pos hleaf]; rfl⟩
        rw [hlinks, List.isEmpty_iff.mp hleaf]
      · have hbelow (child : Int) (hchild : child ∈ t.children) :
            ∃ listed, w.Lists (w.Trail (fresh.erase id)) child listed ∧
              w.pathsFrom (fresh.erase id) child = .ok (listed.map (·.2)) :=
          ih child (hnodup.erase id) (hchildren t (List.mem_of_find?_eq_some hfind) child hchild)
        choose! listed hlists hpaths using hbelow
        refine ⟨branches id t.children listed, ?_, t, hfind, ?_⟩
        · rw [← hlinks] at hlists hleaf ⊢
          exact lists_branches hnodup hfresh (fun hnil => hleaf (List.isEmpty_iff.mpr hnil)) hlists
        · rw [if_neg hleaf, bind_eq_ok_iff, map_snd_branches]
          exact ⟨_, mapM_eq_ok_map hpaths, rfl⟩
  | case2 fresh id hfresh hid' =>
      exact ⟨[], lists_of_not_mem hfresh, by rw [pathsFrom, dif_neg hfresh, if_pos hid]; rfl⟩
  | case3 fresh id hfresh hid' => exact absurd hid hid'

/-! ## paths without places -/

/-- From a root from tasks to listed children, down to a task without children. -/
structure RootToLeaf (w : Workflow) (path : List Int) : Prop where
  start : ∃ root ∈ w.roots, path.head? = some root.id
  links : path.IsChain fun parent child => child ∈ w.childrenOf parent
  ends : ∃ leaf ∈ w.leaves, path.getLast? = some leaf.id

/-- What is met on some choice of children are the chains of children. -/
theorem exists_follow?_iff : (∃ places, w.follow? places id = some path) ↔
    path.head? = some id ∧ path.IsChain fun parent child => child ∈ w.childrenOf parent := by
  constructor
  · intro ⟨places, hfollow⟩
    refine ⟨head?_of_follow? hfollow, ?_⟩
    induction places generalizing id path with
    | nil =>
        rw [← Option.some.inj hfollow]
        exact .singleton id
    | cons place places ih =>
        obtain ⟨child, hchild, rest, hrest, rfl⟩ := follow?_cons_eq_some_iff.mp hfollow
        rw [List.isChain_cons]
        refine ⟨fun next hnext => ?_, ih hrest⟩
        rw [head?_of_follow? hrest] at hnext
        rw [← Option.some.inj hnext]
        exact List.mem_of_getElem? hchild
  · intro ⟨hhead, hchain⟩
    induction hchain generalizing id with
    | nil => cases hhead
    | singleton last =>
        obtain rfl := Option.some.inj hhead
        exact ⟨[], rfl⟩
    | @cons_cons first next rest hlink hrest ih =>
        obtain rfl := Option.some.inj hhead
        obtain ⟨places, hfollow⟩ := ih rfl
        obtain ⟨place, hplace⟩ := List.mem_iff_getElem?.mp hlink
        exact ⟨place :: places, follow?_cons_eq_some_iff.mpr ⟨next, hplace, _, hfollow, rfl⟩⟩

/-- Where no children are listed twice, a path is met on one choice only. -/
theorem eq_of_follow? (hchildren : ∀ t ∈ w.tasks, t.children.Nodup) {others : List Nat}
    (h : w.follow? places id = some path) (h' : w.follow? others id = some path) :
    places = others := by
  induction places generalizing id path others with
  | nil =>
      cases others with
      | nil => rfl
      | cons other others =>
          obtain ⟨child, -, rest, hrest, rfl⟩ := follow?_cons_eq_some_iff.mp h'
          rw [(List.cons.inj (Option.some.inj h)).2.symm] at hrest
          cases head?_of_follow? hrest
  | cons place places ih =>
      obtain ⟨child, hchild, rest, hrest, rfl⟩ := follow?_cons_eq_some_iff.mp h
      cases others with
      | nil =>
          rw [(List.cons.inj (Option.some.inj h')).2.symm] at hrest
          cases head?_of_follow? hrest
      | cons other others =>
          obtain ⟨child', hchild', rest', hrest', heq⟩ := follow?_cons_eq_some_iff.mp h'
          rw [(List.cons.inj heq).2] at hrest'
          have hsame : child = child' := Option.some.inj
            ((head?_of_follow? hrest).symm.trans (head?_of_follow? hrest'))
          rw [← hsame] at hchild' hrest'
          have hplace : place = other := by
            obtain ⟨hlt, -⟩ := List.getElem?_eq_some_iff.mp hchild
            exact (List.getElem?_inj hlt (nodup_childrenOf hchildren id)).mp
              (hchild.trans hchild'.symm)
          rw [hplace, ih hrest hrest']

/-- A chain of children from a task on stays among the tasks. -/
theorem subset_ids_of_links
    (hchildren : ∀ t ∈ w.tasks, ∀ child ∈ t.children, w.contains child = true)
    (hid : id ∈ w.ids) (hhead : path.head? = some id)
    (hlinks : path.IsChain fun parent child => child ∈ w.childrenOf parent) : path ⊆ w.ids := by
  refine hlinks.induction (· ∈ w.ids) path (fun parent child hchild _ => ?_) fun hne => ?_
  · obtain ⟨t, ht, -, hchild⟩ := mem_childrenOf_iff.mp hchild
    exact List.contains_iff_mem.mp (hchildren t ht child hchild)
  · rw [List.head?_eq_some_head hne] at hhead
    rwa [Option.some.inj hhead]

/-- The tasks without children are the leaves. -/
theorem exists_leaf_iff (hid : id ∈ w.ids) :
    w.childrenOf id = [] ↔ ∃ leaf ∈ w.leaves, id = leaf.id := by
  obtain ⟨t, ht, rfl⟩ := List.mem_map.mp hid
  unfold leaves
  simp only [List.mem_filter, List.isEmpty_iff]
  constructor
  · intro hnil
    rw [childrenOf_of_mem ht] at hnil
    exact ⟨t, ⟨ht, hnil⟩, rfl⟩
  · intro ⟨leaf, ⟨hleaf, hnil⟩, hsame⟩
    rw [hsame, childrenOf_of_mem hleaf, hnil]

/-- From a task on, the trails are the chains of children without a repetition that end in a
leaf. -/
theorem Lists.exists_mem_iff {listed : List (List Nat × List Int)}
    (hchildren : ∀ t ∈ w.tasks, ∀ child ∈ t.children, w.contains child = true)
    (hid : id ∈ w.ids) (h : w.Lists (w.Trail w.ids) id listed) :
    path ∈ listed.map (·.2) ↔ path.head? = some id ∧
      (path.IsChain fun parent child => child ∈ w.childrenOf parent) ∧ path.Nodup ∧
        ∃ leaf ∈ w.leaves, path.getLast? = some leaf.id := by
  have hmem : path ∈ listed.map (·.2) ↔
      (∃ places, w.follow? places id = some path) ∧ w.Trail w.ids path := by
    simp only [List.mem_map, Prod.exists, exists_eq_right, h.mem_iff, exists_and_right]
  rw [hmem, exists_follow?_iff, and_assoc]
  refine and_congr_right fun hhead => and_congr_right fun hlinks => ?_
  have hwithin := subset_ids_of_links hchildren hid hhead hlinks
  constructor
  · intro htrail
    obtain ⟨last, hlast, hnil⟩ := htrail.ends
    obtain ⟨leaf, hleaf, rfl⟩ :=
      (exists_leaf_iff (hwithin (List.mem_of_getLast? hlast))).mp hnil
    exact ⟨htrail.nodup, leaf, hleaf, hlast⟩
  · intro ⟨hnodup, leaf, hleaf, hlast⟩
    refine ⟨hwithin, hnodup, leaf.id, hlast, ?_⟩
    exact (exists_leaf_iff (hwithin (List.mem_of_getLast? hlast))).mpr ⟨leaf, hleaf, rfl⟩

/-- Where no children are listed twice, nor is a path. -/
theorem Lists.nodup {p : List Int → Prop} {listed : List (List Nat × List Int)}
    (hchildren : ∀ t ∈ w.tasks, t.children.Nodup) (h : w.Lists p id listed) :
    (listed.map (·.2)).Nodup := by
  refine List.Nodup.map_on ?_ (h.ordered.imp fun hlt heq => ?_)
  · intro ⟨places, path⟩ hx ⟨others, other⟩ hy hsame
    obtain rfl : path = other := hsame
    have hplaces := eq_of_follow? hchildren ((h.mem_iff _ _).mp hx).1 ((h.mem_iff _ _).mp hy).1
    rw [hplaces]
  · rw [heq] at hlt
    exact lt_irrefl _ hlt

/-! ## workflows without cycles -/

/-- In a checked workflow children and parents are the two ends of the same pairs. -/
theorem Reciprocal.mem_childrenOf_iff (h : w.Reciprocal) {parent child : Int} :
    child ∈ w.childrenOf parent ↔ parent ∈ w.parentsOf child := by
  rw [Workflow.mem_childrenOf_iff]
  constructor
  · rintro ⟨t, ht, rfl, hchild⟩
    exact h.child ht hchild
  · exact h.parent

theorem isStrictOrder_ancestor (h : w.Acyclic) : IsStrictOrder Int w.Ancestor where
  irrefl := h
  trans _ _ _ := Relation.TransGen.trans

/-- In a checked workflow without cycles no chain of children meets a task twice. -/
theorem nodup_of_links (hrec : w.Reciprocal) (hacyclic : w.Acyclic)
    (hlinks : path.IsChain fun parent child => child ∈ w.childrenOf parent) : path.Nodup := by
  have horder := isStrictOrder_ancestor hacyclic
  have hchain : path.IsChain w.Ancestor := hlinks.imp fun parent child hchild =>
    .single (hrec.mem_childrenOf_iff.mp hchild)
  refine (List.isChain_iff_pairwise.mp hchain).imp fun hancestor heq => ?_
  rw [heq] at hancestor
  exact hacyclic _ hancestor

/-- From every task there is a way down to a leaf. -/
theorem exists_descent (hrec : w.Reciprocal) (hacyclic : w.Acyclic) (hid : id ∈ w.ids) :
    ∃ rest, ((id :: rest).IsChain fun parent child => child ∈ w.childrenOf parent) ∧
      ∃ leaf ∈ w.leaves, (id :: rest).getLast? = some leaf.id := by
  have horder := isStrictOrder_ancestor hacyclic
  have hwell : {x | x ∈ w.ids}.WellFoundedOn (Function.swap w.Ancestor) :=
    w.ids.finite_toSet.wellFoundedOn
  apply hwell.induction hid
  intro id hid ih
  cases hchildren : w.childrenOf id with
  | nil =>
      obtain ⟨leaf, hleaf, rfl⟩ := (exists_leaf_iff hid).mp hchildren
      exact ⟨[], .singleton _, leaf, hleaf, rfl⟩
  | cons child others =>
      have hlink : child ∈ w.childrenOf id := by
        rw [hchildren]
        exact List.mem_cons_self
      have hparent := hrec.mem_childrenOf_iff.mp hlink
      obtain ⟨rest, hlinks, hend⟩ := ih child (mem_ids_of_parentsOf hparent) (.single hparent)
      exact ⟨child :: rest, .cons_cons hlink hlinks, by rwa [List.getLast?_cons_cons]⟩

/-- Every way down from a task is part of a way down from a root. -/
theorem exists_rootToLeaf (hrec : w.Reciprocal) (hacyclic : w.Acyclic) (hid : id ∈ w.ids)
    {rest : List Int}
    (hlinks : (id :: rest).IsChain fun parent child => child ∈ w.childrenOf parent)
    (hend : ∃ leaf ∈ w.leaves, (id :: rest).getLast? = some leaf.id) :
    ∃ path, w.RootToLeaf path ∧ id :: rest ⊆ path := by
  have horder := isStrictOrder_ancestor hacyclic
  have hwell : {x | x ∈ w.ids}.WellFoundedOn w.Ancestor := w.ids.finite_toSet.wellFoundedOn
  revert rest
  apply hwell.induction hid
  intro id hid ih rest hlinks hend
  obtain ⟨t, ht, rfl⟩ := List.mem_map.mp hid
  cases hparents : t.parents with
  | nil =>
      have hroot : t ∈ w.roots := List.mem_filter.mpr ⟨ht, List.isEmpty_iff.mpr hparents⟩
      exact ⟨t.id :: rest, ⟨⟨t, hroot, rfl⟩, hlinks, hend⟩, List.Subset.refl _⟩
  | cons parent others =>
      have hparent : parent ∈ w.parentsOf t.id := by
        rw [parentsOf_eq (find?_of_mem ht), hparents]
        exact List.mem_cons_self
      have hlink := hrec.mem_childrenOf_iff.mpr hparent
      obtain ⟨path, hpath, hsub⟩ := ih parent (mem_ids_of_childrenOf hlink) (.single hparent)
        (.cons_cons hlink hlinks) (by rwa [List.getLast?_cons_cons])
      exact ⟨path, hpath, (List.cons_subset.mp hsub).2⟩

/-! ## all paths -/

/-- The paths of a workflow are listed root by root, from each root on by the places of the
children that are chosen, which takes finitely many turns.  They are the ways from roots to
leaves that meet no task twice, each once if no children are listed twice, and without cycles
they are all ways from roots to leaves and meet every task. -/
structure Enumerates (w : Workflow) (paths : List (List Int)) : Prop where
  inOrder : ∃ listed : Int → List (List Nat × List Int),
    (∀ root ∈ w.roots, w.Lists (w.Trail w.ids) root.id (listed root.id) ∧
      ∀ found, w.Backtracks ⟨[[root.id]], [], ∅, found⟩
        ⟨[], [], ∅, found ++ (listed root.id).map (·.2)⟩) ∧
    paths = w.roots.flatMap fun root => (listed root.id).map (·.2)
  mem_iff : ∀ path, path ∈ paths ↔ w.RootToLeaf path ∧ path.Nodup
  nodup : (∀ t ∈ w.tasks, t.children.Nodup) → paths.Nodup
  acyclic : w.check = .ok () → w.Acyclic →
    (∀ path, path ∈ paths ↔ w.RootToLeaf path) ∧ ∀ id ∈ w.ids, ∃ path ∈ paths, id ∈ path

theorem mem_ids_of_mem_roots {root : Task} (hroot : root ∈ w.roots) : root.id ∈ w.ids :=
  List.mem_map_of_mem (List.mem_filter.mp hroot).1

/-- What is listed from each root on is found, root by root. -/
theorem exists_listed (hchildren : ∀ t ∈ w.tasks, ∀ child ∈ t.children, w.contains child = true) :
    ∃ listed : Int → List (List Nat × List Int),
      (∀ root ∈ w.roots, w.Lists (w.Trail w.ids) root.id (listed root.id) ∧
        w.pathsFrom w.ids root.id = .ok ((listed root.id).map (·.2))) ∧
      w.paths = .ok (w.roots.flatMap fun root => (listed root.id).map (·.2)) := by
  have hroots (id : Int) (hid : ∃ root ∈ w.roots, root.id = id) :
      ∃ listed, w.Lists (w.Trail w.ids) id listed ∧
        w.pathsFrom w.ids id = .ok (listed.map (·.2)) := by
    obtain ⟨root, hroot, rfl⟩ := hid
    exact exists_lists hchildren w.nodup_ids
      (List.contains_iff_mem.mpr (mem_ids_of_mem_roots hroot))
  choose! listed hlists hpaths using hroots
  have hfound (root : Task) (hroot : root ∈ w.roots) :
      w.pathsFrom w.ids root.id = .ok ((listed root.id).map (·.2)) :=
    hpaths root.id ⟨root, hroot, rfl⟩
  refine ⟨listed, fun root hroot => ?_, bind_eq_ok_iff.mpr ⟨_, mapM_eq_ok_map hfound, ?_⟩⟩
  · exact ⟨hlists root.id ⟨root, hroot, rfl⟩, hfound root hroot⟩
  · rw [List.flatMap_def]
    rfl

section

variable {listed : Int → List (List Nat × List Int)}
  (hchildren : ∀ t ∈ w.tasks, ∀ child ∈ t.children, w.contains child = true)
  (hlists : ∀ root ∈ w.roots, w.Lists (w.Trail w.ids) root.id (listed root.id))

include hchildren hlists

theorem mem_listed_iff : (path ∈ w.roots.flatMap fun root => (listed root.id).map (·.2)) ↔
    w.RootToLeaf path ∧ path.Nodup := by
  rw [List.mem_flatMap]
  constructor
  · intro ⟨root, hroot, hpath⟩
    obtain ⟨hhead, hlinks, hnodup, hend⟩ :=
      ((hlists root hroot).exists_mem_iff hchildren (mem_ids_of_mem_roots hroot)).mp hpath
    exact ⟨⟨⟨root, hroot, hhead⟩, hlinks, hend⟩, hnodup⟩
  · intro ⟨⟨⟨root, hroot, hhead⟩, hlinks, hend⟩, hnodup⟩
    refine ⟨root, hroot, ?_⟩
    exact ((hlists root hroot).exists_mem_iff hchildren (mem_ids_of_mem_roots hroot)).mpr
      ⟨hhead, hlinks, hnodup, hend⟩

/-- No two roots share an id, so nothing is listed from two of them on. -/
theorem nodup_listed (honce : ∀ t ∈ w.tasks, t.children.Nodup) :
    (w.roots.flatMap fun root => (listed root.id).map (·.2)).Nodup := by
  have hroots : w.roots.Pairwise fun a b => a.id ≠ b.id :=
    (List.pairwise_map.mp w.nodup_ids).filter _
  rw [List.nodup_flatMap]
  refine ⟨fun root hroot => (hlists root hroot).nodup honce, ?_⟩
  refine hroots.imp_of_mem fun {a b} ha hb hne path hpath hpath' => hne ?_
  have hhead := (((hlists a ha).exists_mem_iff hchildren (mem_ids_of_mem_roots ha)).mp hpath).1
  have hhead' := (((hlists b hb).exists_mem_iff hchildren (mem_ids_of_mem_roots hb)).mp hpath').1
  exact Option.some.inj (hhead.symm.trans hhead')

end

/-- **All paths are listed**: where all listed children are tasks, whatever cycles there are, the
paths of a workflow are found, and are just those that lead from a root along children to a
task without any and meet no task twice, in depth-first order. -/
theorem enumerates_paths
    (hchildren : ∀ t ∈ w.tasks, ∀ child ∈ t.children, w.contains child = true) :
    ∃ paths, w.paths = .ok paths ∧ w.Enumerates paths := by
  obtain ⟨listed, hlisted, hpaths⟩ := exists_listed hchildren
  have hmem (path : List Int) :
      (path ∈ w.roots.flatMap fun root => (listed root.id).map (·.2)) ↔
        w.RootToLeaf path ∧ path.Nodup :=
    mem_listed_iff hchildren fun root hroot => (hlisted root hroot).1
  refine ⟨_, hpaths, ⟨listed, fun root hroot => ?_, rfl⟩, hmem, fun honce => ?_,
    fun hcheck hacyclic => ?_⟩
  · exact ⟨(hlisted root hroot).1, turns_of_root (hlisted root hroot).2⟩
  · exact nodup_listed hchildren (fun root hroot => (hlisted root hroot).1) honce
  · have hrec : w.Reciprocal := check_eq_ok_iff.mp hcheck
    have hall (path : List Int) (hpath : w.RootToLeaf path) : w.RootToLeaf path ∧ path.Nodup :=
      ⟨hpath, nodup_of_links hrec hacyclic hpath.links⟩
    refine ⟨fun path => (hmem path).trans ⟨And.left, hall path⟩, fun id hid => ?_⟩
    obtain ⟨rest, hlinks, hend⟩ := exists_descent hrec hacyclic hid
    obtain ⟨path, hpath, hsub⟩ := exists_rootToLeaf hrec hacyclic hid hlinks hend
    exact ⟨path, (hmem path).mpr (hall path hpath), hsub List.mem_cons_self⟩

/-- A root that lists its child twice, and a child that leads back to the root and to itself. -/
def knotted : Workflow where
  tasks := [
    { Task.make 1 1 1 none none with children := [2, 2] },
    { Task.make 2 1 1 none none with parents := [1], children := [1, 3, 2] },
    { Task.make 3 1 1 none none with parents := [2] }]
  nodup_ids := by decide

/-- Every choice of the child counts, and the ways back are not taken. -/
theorem enumerates_knotted :
    (∀ t ∈ knotted.tasks, ∀ child ∈ t.children, knotted.contains child = true) ∧
      knotted.paths = .ok [[1, 2, 3], [1, 2, 3]] ∧
      knotted.Enumerates [[1, 2, 3], [1, 2, 3]] := by
  have hchildren : ∀ t ∈ knotted.tasks, ∀ child ∈ t.children, knotted.contains child = true := by
    decide
  have hpaths : knotted.paths = .ok [[1, 2, 3], [1, 2, 3]] := by decide +kernel
  obtain ⟨paths, hfound, henumerates⟩ := enumerates_paths hchildren
  obtain rfl := Except.ok.inj (hpaths.symm.trans hfound)
  exact ⟨hchildren, hpaths, henumerates⟩

end Workflow

end SharedLink
