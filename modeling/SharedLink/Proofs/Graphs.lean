import SharedLink.Proofs.Listing
import SharedLink.Proofs.Rounds

/-!
# SharedLink.Proofs.Graphs

What the graph of a workflow shows.

Ends can be pushed into the lists of a workflow without any check: children can repeat,
can be no tasks, and can be the task itself.  The graph has one node for each id and one
edge for each link all the same, and the test for cycles is about the links as they are
listed with the parents, whether or not the children know of them.

* `Workflow.Draws` — one node for each id and one edge for each link;
* `leads_drawing` — edges lead wherever links do;
* `drawn_or_overflow` — the graph and the test are exact, or the size of an output is missing.
-/

namespace SharedLink

/-- However often a child is listed, there is one edge to it. -/
theorem Task.nodup_links (t : Task) : (t.links.map fun e => (e.source, e.target)).Nodup := by
  unfold links
  rw [List.map_map]
  exact (nodup_eraseDups _).map fun a b h => (Prod.mk.inj h).2

namespace Workflow

variable {w : Workflow}

/-- A non-empty sequence of links to children leads from one task to another. -/
def Descendant (w : Workflow) : Int → Int → Prop :=
  Relation.TransGen fun parent child => child ∈ w.childrenOf parent

/-- A graph shows a workflow: it has each task and each listed child for a node, once and marked
if it is a task, and each link for an edge, once and with the size of the output. -/
structure Draws (w : Workflow) (g : TaskGraph) : Prop where
  mem_nodes_iff : ∀ id isTask, (id, isTask) ∈ g.nodes ↔
    isTask = w.contains id ∧ (id ∈ w.ids ∨ ∃ t ∈ w.tasks, id ∈ t.children)
  nodup_nodes : (g.nodes.map (·.1)).Nodup
  mem_edges_iff : ∀ e, e ∈ g.edges ↔ ∃ t ∈ w.tasks,
    e.source = t.id ∧ e.target ∈ t.children ∧ t.outputSize = .ok e.weight
  nodup_edges : (g.edges.map fun e => (e.source, e.target)).Nodup

theorem mem_strangers_iff {id : Int} :
    id ∈ w.strangers ↔ (∃ t ∈ w.tasks, id ∈ t.children) ∧ w.contains id = false := by
  unfold strangers
  rw [List.mem_eraseDups, List.mem_filter, List.mem_flatMap, Bool.not_eq_true']

/-- The drawing shows the workflow; edges from different tasks have different sources. -/
theorem draws_drawing (h : w.Sized) : w.Draws w.drawing where
  mem_nodes_iff id isTask := by
    rw [drawing, List.mem_append, List.mem_map, List.mem_map]
    constructor
    · rintro (⟨id, hid, heq⟩ | ⟨id, hid, heq⟩)
      · obtain ⟨rfl, rfl⟩ := Prod.mk.inj heq
        exact ⟨(List.contains_iff_mem.mpr hid).symm, .inl hid⟩
      · obtain ⟨rfl, rfl⟩ := Prod.mk.inj heq
        obtain ⟨hchild, hnone⟩ := mem_strangers_iff.mp hid
        exact ⟨hnone.symm, .inr hchild⟩
    · rintro ⟨rfl, hid⟩
      cases hcontains : w.contains id with
      | true => exact .inl ⟨id, List.contains_iff_mem.mp hcontains, rfl⟩
      | false =>
          have hnone : id ∉ w.ids := fun hid => by
            rw [contains, List.contains_iff_mem.mpr hid] at hcontains
            cases hcontains
          exact .inr ⟨id, mem_strangers_iff.mpr ⟨hid.resolve_left hnone, hcontains⟩, rfl⟩
  nodup_nodes := by
    have hnodes : w.drawing.nodes.map (·.1) = w.ids ++ w.strangers := by
      simp [drawing, Function.comp_def]
    rw [hnodes, List.nodup_append]
    refine ⟨w.nodup_ids, nodup_eraseDups _, fun id hid other hother heq => ?_⟩
    have hnone := (mem_strangers_iff.mp hother).2
    rw [← heq, contains, List.contains_iff_mem.mpr hid] at hnone
    cases hnone
  mem_edges_iff _ := mem_drawing_edges_iff h
  nodup_edges := by
    unfold drawing
    rw [List.map_flatMap, List.nodup_flatMap]
    refine ⟨fun t _ => t.nodup_links, ?_⟩
    refine (List.pairwise_map.mp w.nodup_ids).imp fun {t u} hne link ht hu => hne ?_
    obtain ⟨e, he, rfl⟩ := List.mem_map.mp ht
    obtain ⟨f, hf, hlink⟩ := List.mem_map.mp hu
    obtain ⟨a, -, rfl⟩ := List.mem_map.mp he
    obtain ⟨b, -, rfl⟩ := List.mem_map.mp hf
    exact (Prod.mk.inj hlink).1.symm

/-- Edges lead wherever links do. -/
theorem leads_drawing (h : w.Sized) : w.drawing.Leads = w.Descendant := by
  have hlinks : (fun source target => ∃ e ∈ w.drawing.edges, e.source = source ∧ e.target = target) =
      fun parent child => child ∈ w.childrenOf parent := by
    funext parent child
    rw [mem_childrenOf_iff, eq_iff_iff]
    constructor
    · rintro ⟨e, he, rfl, rfl⟩
      obtain ⟨t, ht, hsource, htarget, -⟩ := (mem_drawing_edges_iff h).mp he
      exact ⟨t, ht, hsource.symm, htarget⟩
    · rintro ⟨t, ht, rfl, hchild⟩
      exact exists_edge h ht hchild
  unfold TaskGraph.Leads Descendant
  rw [hlinks]

/-- **The graph and the test are exact**, if each output that is sent has a size: the graph shows
the tasks, all listed children and the links between them, and the test says whether there are no
links from a task back to it.  Children may repeat, be no tasks, and be the task itself.  If a
size is beyond all range, there is neither a graph nor an answer. -/
theorem drawn_or_overflow (w : Workflow) :
    (w.Sized ∧ ∃ g acyclic, w.graph = .ok g ∧ w.Draws g ∧ w.isAcyclic = .ok acyclic ∧
      (acyclic = true ↔ ∀ id, ¬w.Descendant id id)) ∨
    (¬w.Sized ∧ w.graph = .error .overflow ∧ w.isAcyclic = .error .overflow) := by
  by_cases hsized : w.Sized
  · have hdraws := draws_drawing hsized
    have hgraph := graph_of_sized hsized
    refine .inl ⟨hsized, w.drawing, w.drawing.isAcyclic, hgraph, hdraws, ?_, ?_⟩
    · rw [isAcyclic, hgraph]
      rfl
    · rw [TaskGraph.isAcyclic_iff (source_mem_nodes hsized), leads_drawing hsized]
  · have hgraph := graph_of_not_sized hsized
    refine .inr ⟨hsized, hgraph, ?_⟩
    rw [isAcyclic, hgraph]
    rfl

/-- A task with a child and two outputs, the first of them too large to be added to a double. -/
def swollen : Workflow where
  tasks := [
    { Task.make 1 0 1 none none with
      children := [2]
      files := [
        { name := "large", size := .int (2 ^ 1024), kind := .output,
          size_nonneg := by decide +kernel },
        { name := "small", size := .double 0.5, kind := .output, size_nonneg := by decide +kernel }] },
    { Task.make 2 0 1 none none with parents := [1] }]
  nodup_ids := by decide

/-- Only one link of it can be followed, so that none lead from a task back to that task, and
still there is neither a graph nor an answer. -/
theorem swollen_not_drawn :
    (∀ id, ¬swollen.Descendant id id) ∧ swollen.isAcyclic ≠ .ok true ∧
      ∀ g, swollen.graph ≠ .ok g := by
  have hgraph : swollen.graph = .error .overflow := by decide +kernel
  have hlink (parent child : Int) (h : child ∈ swollen.childrenOf parent) :
      parent = 1 ∧ child = 2 := by
    obtain ⟨t, ht, rfl, hchild⟩ := mem_childrenOf_iff.mp h
    have hlinks : ∀ t ∈ swollen.tasks, ∀ child ∈ t.children, t.id = 1 ∧ child = 2 := by decide
    exact hlinks t ht child hchild
  have hpath (a b : Int) (h : swollen.Descendant a b) : a = 1 ∧ b = 2 := by
    induction h with
    | single h => exact hlink _ _ h
    | tail before h ih => exact absurd ((hlink _ _ h).1.symm.trans ih.2) (by decide)
  refine ⟨fun id h => ?_, ?_, fun g hg => ?_⟩
  · obtain ⟨hone, htwo⟩ := hpath id id h
    exact absurd (hone.symm.trans htwo) (by decide)
  · rw [isAcyclic, hgraph]
    intro h
    cases h
  · rw [hgraph] at hg
    cases hg

end Workflow

end SharedLink
