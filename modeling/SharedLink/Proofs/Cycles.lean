import Mathlib.Order.WellFoundedSet
import SharedLink.Proofs.Ancestry
import SharedLink.Proofs.Outcomes
import SharedLink.Workflow.Check
import SharedLink.Workflow.Graph

/-!
# SharedLink.Proofs.Cycles

Elimination finds just the cycles.

Nodes of which each has an edge to another of them survive every round of
elimination, for no round can be the first to take one of them away; the nodes of a
cycle are such nodes.  On the other hand a round either takes a node away or leaves
nodes of this kind, so that after as many rounds as there are nodes nothing else is left.
Going on from one of them to the next must come back to some node in the end.

A graph is drawn if the outputs that are sent have sizes.  Only those have none in which
an integer beyond the range of doubles is added to a double.

* `graph_of_sized`, `graph_of_not_sized` — the graph, if there is one;
* `mem_eliminate` — what elimination cannot take away;
* `exists_kept` — what it leaves leads into itself;
* `isAcyclic_iff` — it leaves nothing just if no edges lead from a node back to it;
* `not_ancestor_self` — then no task is its own ancestor.
-/

namespace SharedLink

/-! ## the graph -/

namespace Task

variable {t : Task}

/-- The output of a task has a size, if there is anyone to send it to. -/
def Sized (t : Task) : Prop := t.children ≠ [] → ∃ size, t.outputSize = .ok size

/-- The bytes that come out of a task, and zero if they are beyond all range. -/
def weight (t : Task) : Quantity :=
  match t.outputSize with
  | .ok size => size
  | .error _ => 0

/-- One edge to every child. -/
def links (t : Task) : List Edge :=
  t.children.eraseDups.map fun child => ⟨t.id, child, t.weight⟩

theorem weight_eq {size : Quantity} (h : t.outputSize = .ok size) : t.weight = size := by
  unfold weight
  rw [h]

theorem mem_links_iff (h : t.Sized) {e : Edge} :
    e ∈ t.links ↔ e.source = t.id ∧ e.target ∈ t.children ∧ t.outputSize = .ok e.weight := by
  unfold links
  rw [List.mem_map]
  constructor
  · rintro ⟨child, hchild, rfl⟩
    have hchild : child ∈ t.children := List.mem_eraseDups.mp hchild
    obtain ⟨size, hsize⟩ := h (List.ne_nil_of_mem hchild)
    exact ⟨rfl, hchild, by rw [weight_eq hsize, hsize]⟩
  · rintro ⟨hsource, htarget, hweight⟩
    refine ⟨e.target, List.mem_eraseDups.mpr htarget, ?_⟩
    rw [weight_eq hweight, ← hsource]

/-- The edges of a task are drawn if they are not without a size. -/
theorem edgesFrom_of_sized (h : t.Sized) : Workflow.edgesFrom t = .ok t.links := by
  unfold Workflow.edgesFrom links
  by_cases hempty : t.children = []
  · rw [hempty]
    rfl
  · obtain ⟨size, hsize⟩ := h hempty
    rw [if_neg (mt List.isEmpty_iff.mp hempty), weight_eq hsize, hsize]
    rfl

theorem edgesFrom_of_not_sized (h : ¬t.Sized) : Workflow.edgesFrom t = .error .overflow := by
  obtain ⟨hsome, hnone⟩ := Classical.not_imp.mp h
  have hsize : t.outputSize = .error .overflow := by
    unfold outputSize at hnone ⊢
    cases hsum : Quantity.sum? (t.outputFiles.map (·.size)) with
    | none => rfl
    | some size => exact absurd ⟨size, by rw [hsum]⟩ hnone
  unfold Workflow.edgesFrom
  rw [if_neg (mt List.isEmpty_iff.mp hsome), hsize]
  rfl

end Task

namespace Workflow

variable {w : Workflow} {g : TaskGraph}

/-- All outputs that are sent have sizes. -/
def Sized (w : Workflow) : Prop := ∀ t ∈ w.tasks, t.Sized

/-- The graph that is drawn if all sizes are known. -/
def drawing (w : Workflow) : TaskGraph where
  nodes := w.ids.map (·, true) ++ w.strangers.map (·, false)
  edges := w.tasks.flatMap Task.links

theorem graph_of_sized (h : w.Sized) : w.graph = .ok w.drawing := by
  unfold graph
  rw [mapM_eq_ok_map fun t ht => Task.edgesFrom_of_sized (h t ht)]
  rfl

theorem graph_of_not_sized (h : ¬w.Sized) : w.graph = .error .overflow := by
  unfold Sized at h
  push Not at h
  obtain ⟨t, ht, hsize⟩ := h
  unfold graph
  cases hedges : w.tasks.mapM edgesFrom with
  | ok edges =>
      obtain ⟨out, -, hout⟩ := exists_mem_of_mapM hedges ht
      rw [Task.edgesFrom_of_not_sized hsize] at hout
      cases hout
  | error fault =>
      obtain ⟨u, -, hfault⟩ := exists_error_of_mapM hedges
      by_cases hsized : u.Sized
      · rw [Task.edgesFrom_of_sized hsized] at hfault
        cases hfault
      · rw [Task.edgesFrom_of_not_sized hsized] at hfault
        rw [← Except.error.inj hfault]
        rfl

/-- What is drawn is the graph of sizes that are known. -/
theorem eq_drawing (h : w.graph = .ok g) : w.Sized ∧ g = w.drawing := by
  by_cases hsized : w.Sized
  · rw [graph_of_sized hsized] at h
    exact ⟨hsized, (Except.ok.inj h).symm⟩
  · rw [graph_of_not_sized hsized] at h
    cases h

theorem mem_drawing_edges_iff (h : w.Sized) {e : Edge} : e ∈ w.drawing.edges ↔
    ∃ t ∈ w.tasks, e.source = t.id ∧ e.target ∈ t.children ∧ t.outputSize = .ok e.weight := by
  unfold drawing
  rw [List.mem_flatMap]
  exact exists_congr fun t => and_congr_right fun ht => Task.mem_links_iff (h t ht)

/-- There is an edge to every child of a task. -/
theorem exists_edge (h : w.Sized) {t : Task} (ht : t ∈ w.tasks) {child : Int}
    (hchild : child ∈ t.children) : ∃ e ∈ w.drawing.edges, e.source = t.id ∧ e.target = child := by
  obtain ⟨size, hsize⟩ := h t ht (List.ne_nil_of_mem hchild)
  exact ⟨⟨t.id, child, size⟩, (mem_drawing_edges_iff h).mpr ⟨t, ht, rfl, hchild, hsize⟩, rfl, rfl⟩

/-- Edges start at tasks, and these are nodes. -/
theorem source_mem_nodes (h : w.Sized) :
    ∀ e ∈ w.drawing.edges, e.source ∈ w.drawing.nodes.map (·.1) := by
  intro e he
  obtain ⟨t, ht, hsource, -⟩ := (mem_drawing_edges_iff h).mp he
  have hid : e.source ∈ w.ids := hsource ▸ List.mem_map_of_mem ht
  exact List.mem_map.mpr ⟨(e.source, true),
    List.mem_append_left _ (List.mem_map_of_mem (f := (·, true)) hid), rfl⟩

end Workflow

/-! ## elimination -/

/-- Where every element has a successor among finitely many, one leads back to itself. -/
theorem exists_cycle {r : Int → Int → Prop} {kept : List Int} (hne : kept ≠ [])
    (h : ∀ n ∈ kept, ∃ m ∈ kept, r n m) : ∃ n, Relation.TransGen r n n := by
  by_contra hnone
  have horder : IsStrictOrder Int (Relation.TransGen r) :=
    { irrefl := fun n hn => hnone ⟨n, hn⟩, trans := fun _ _ _ => Relation.TransGen.trans }
  have hwell : {n | n ∈ kept}.WellFoundedOn (Function.swap (Relation.TransGen r)) :=
    kept.finite_toSet.wellFoundedOn
  obtain ⟨first, hfirst⟩ := List.exists_mem_of_ne_nil kept hne
  refine hwell.induction (P := fun _ => False) hfirst fun n hn ih => ?_
  obtain ⟨m, hm, hlink⟩ := h n hn
  exact ih m hm (.single hlink)

namespace TaskGraph

variable {g : TaskGraph} {nodes : List Int}

/-- A non-empty sequence of edges leads from one node to another. -/
def Leads (g : TaskGraph) : Int → Int → Prop :=
  Relation.TransGen fun source target => ∃ e ∈ g.edges, e.source = source ∧ e.target = target

theorem mem_leadingInto_iff {n : Int} :
    n ∈ g.leadingInto nodes ↔ n ∈ nodes ∧ ∃ e ∈ g.edges, e.source = n ∧ e.target ∈ nodes := by
  simp only [leadingInto, List.mem_filter, List.any_eq_true, Bool.and_eq_true, beq_iff_eq,
    List.contains_iff_mem]

/-- Nodes that all have an edge to one of them are never taken away. -/
theorem mem_eliminate {kept : Int → Prop}
    (hkept : ∀ n, kept n → ∃ e ∈ g.edges, e.source = n ∧ kept e.target)
    (hnodes : ∀ n, kept n → n ∈ nodes) (rounds : Nat) :
    ∀ n, kept n → n ∈ g.eliminate rounds nodes := by
  induction rounds generalizing nodes with
  | zero => exact hnodes
  | succ rounds ih =>
      refine ih fun n hn => mem_leadingInto_iff.mpr ⟨hnodes n hn, ?_⟩
      obtain ⟨e, he, hsource, htarget⟩ := hkept n hn
      exact ⟨e, he, hsource, hnodes e.target htarget⟩

theorem eliminate_nil (rounds : Nat) : g.eliminate rounds [] = [] := by
  induction rounds with
  | zero => rfl
  | succ rounds ih => exact ih

/-- **Elimination is complete**: if as many rounds as there are nodes leave anything, there are
nodes that all have an edge to one of them, since any other round takes a node away. -/
theorem exists_kept {rounds : Nat} (hrounds : nodes.length ≤ rounds)
    (hleft : g.eliminate rounds nodes ≠ []) :
    ∃ kept : List Int, kept ≠ [] ∧
      ∀ n ∈ kept, ∃ m ∈ kept, ∃ e ∈ g.edges, e.source = n ∧ e.target = m := by
  induction rounds generalizing nodes with
  | zero => exact absurd (List.length_eq_zero_iff.mp (Nat.le_zero.mp hrounds)) hleft
  | succ rounds ih =>
      by_cases hall : ∀ n ∈ nodes, n ∈ g.leadingInto nodes
      · refine ⟨nodes, fun hnil => hleft (by rw [hnil, eliminate_nil]), fun n hn => ?_⟩
        obtain ⟨-, e, he, hsource, htarget⟩ := mem_leadingInto_iff.mp (hall n hn)
        exact ⟨e.target, htarget, e, he, hsource, rfl⟩
      · have hshort : (g.leadingInto nodes).length < nodes.length := by
          refine lt_of_le_of_ne (List.length_filter_le _ _) fun heq => hall fun n hn => ?_
          exact List.mem_filter.mpr ⟨hn, List.length_filter_eq_length_iff.mp heq n hn⟩
        exact ih (by omega) hleft

/-- **The test is exact**: nothing is left just if no edges lead from a node back to it, since the
nodes on cycles keep each other from being taken away. -/
theorem isAcyclic_iff (hnodes : ∀ e ∈ g.edges, e.source ∈ g.nodes.map (·.1)) :
    g.isAcyclic = true ↔ ∀ n, ¬g.Leads n n := by
  constructor
  · intro h
    have hkept (n : Int) (hn : g.Leads n n) :
        ∃ e ∈ g.edges, e.source = n ∧ g.Leads e.target e.target := by
      obtain ⟨m, ⟨e, he, hsource, rfl⟩, hback⟩ := Relation.TransGen.head'_iff.mp hn
      exact ⟨e, he, hsource, .tail' hback ⟨e, he, hsource, rfl⟩⟩
    have hmem (n : Int) (hn : g.Leads n n) : n ∈ g.nodes.map (·.1) := by
      obtain ⟨e, he, rfl, -⟩ := hkept n hn
      exact hnodes e he
    intro n hn
    have hleft := mem_eliminate hkept hmem g.nodes.length n hn
    rw [List.isEmpty_iff.mp h] at hleft
    cases hleft
  · intro h
    by_contra hacyclic
    have hleft : g.eliminate g.nodes.length (g.nodes.map (·.1)) ≠ [] :=
      fun hnil => hacyclic (List.isEmpty_iff.mpr hnil)
    obtain ⟨kept, hne, hkept⟩ := exists_kept (by rw [List.length_map]) hleft
    obtain ⟨n, hn⟩ := exists_cycle hne hkept
    exact h n hn

end TaskGraph

/-! ## ancestors -/

namespace Workflow

/-- A parent of a checked workflow is a task that lists the child. -/
theorem Reciprocal.parent {w : Workflow} (h : w.Reciprocal) {parent child : Int}
    (hp : parent ∈ w.parentsOf child) : ∃ t ∈ w.tasks, t.id = parent ∧ child ∈ t.children := by
  unfold parentsOf at hp
  cases hc : w.find? child with
  | none =>
      rw [hc] at hp
      cases hp
  | some c =>
      rw [hc] at hp
      obtain ⟨t, ht, hmem⟩ := (h c (List.mem_of_find?_eq_some hc)).1 parent hp
      rw [id_of_find? hc] at hmem
      exact ⟨t, List.mem_of_find?_eq_some ht, id_of_find? ht, hmem⟩

/-- **Acyclicity**: no task of a checked workflow without cycles is its own ancestor. -/
theorem not_ancestor_self {w : Workflow} (hrec : w.Reciprocal) (h : w.isAcyclic = .ok true)
    (id : Int) : ¬w.Ancestor id id := by
  obtain ⟨g, hg, hacyclic⟩ := bind_eq_ok_iff.mp h
  obtain ⟨hsized, rfl⟩ := eq_drawing hg
  have hnone := (TaskGraph.isAcyclic_iff (source_mem_nodes hsized)).mp (Except.ok.inj hacyclic) id
  refine fun hid => hnone (Relation.TransGen.mono (fun parent child hparent => ?_) id id hid)
  obtain ⟨t, ht, rfl, hchild⟩ := hrec.parent hparent
  exact exists_edge hsized ht hchild

/-- No task is its own ancestor. -/
def Acyclic (w : Workflow) : Prop := ∀ id, ¬w.Ancestor id id

/-- A checked workflow that is found to be without cycles is. -/
theorem acyclic_of_isAcyclic {w : Workflow} (hrec : w.Reciprocal) (h : w.isAcyclic = .ok true) :
    w.Acyclic := not_ancestor_self hrec h

end Workflow

end SharedLink
