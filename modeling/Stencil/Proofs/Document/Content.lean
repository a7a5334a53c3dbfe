import Stencil.Proofs.Document.Confinement
import Stencil.Proofs.Markup.Relabelling

/-! # The content of nodes

What a node carries are the trees below it, without their labels. A change that is confined to the
tree of a node revises every tree above it there, and leaves the others as they are.
-/

namespace Stencil

open Markup NodeTree

namespace View

variable {v w : View} {p q : Option NodeId} {g : NodeId} {n : Node}

/-- A standing tree has all the nodes that its top is above. -/
theorem Stands.mem_of_above {t : NodeTree NodeId} {x : NodeId} (h : v.Stands p t) (f : Forest v)
    (above : Above v t.label x) : x ∈ t.labels := by
  induction above with
  | self => exact label_mem_labels t
  | step node parent _ ih =>
      obtain ⟨q, ⟨id, data, children⟩, inside, rfl⟩ := exists_within p t _ ih
      obtain ⟨m, there, listed⟩ := f.parent node parent
      have top := there.symm.trans (h.within inside).top
      rw [Option.some.inj top] at listed
      obtain ⟨c, mem, rfl⟩ := List.mem_map.1 listed
      exact (inside.child mem).label_mem

/-- Trees whose tops, and no other nodes, have been given another parent stand below it. -/
theorem standAll_reparent {us : List (NodeTree NodeId)} (h : v.StandAll p us)
    (nodup : (labelsAll us).Nodup)
    (tops : ∀ x ∈ us.map label, ∀ n, v x = some n → w x = some { n with parent := q })
    (below : ∀ x ∈ labelsAll us, x ∉ us.map label → w x = v x) : w.StandAll q us := by
  refine standAll_iff.2 fun t listed => ?_
  have stands := standAll_iff.1 h t listed
  have own : t.labels.Nodup := nodup.sublist (labels_sublist_labelsAll listed)
  cases t with
  | node id data children =>
      obtain ⟨out, -⟩ := List.nodup_cons.1 own
      refine ⟨tops id (List.mem_map_of_mem listed) _ stands.1,
        standAll_congr _ children (fun x hx => ?_) stands.2⟩
      refine below x (labels_subset_labelsAll listed x (List.mem_cons_of_mem id hx)) fun mem => ?_
      obtain ⟨u, other, rfl⟩ := List.mem_map.1 mem
      have same := eq_of_mem_labels nodup other listed (label_mem_labels u)
        (List.mem_cons_of_mem id hx)
      subst same
      exact out hx

mutual

/-- At most one tree stands at a node. -/
theorem stands_unique : (t : NodeTree NodeId) → {s : NodeTree NodeId} → {p q : Option NodeId} →
    v.Stands p t → v.Stands q s → t.label = s.label → t = s
  | .node id data children, .node id' data' children', p, q, stands, stands', same => by
      obtain rfl : id = id' := same
      obtain ⟨rfl, -, labels⟩ := Node.mk.inj (Option.some.inj (stands.1.symm.trans stands'.1))
      rw [standAll_unique children stands.2 stands'.2 labels]

theorem standAll_unique : (ts : List (NodeTree NodeId)) → {ss : List (NodeTree NodeId)} →
    {p q : Option NodeId} → v.StandAll p ts → v.StandAll q ss →
    ts.map label = ss.map label → ts = ss
  | [], [], _, _, _, _, _ => rfl
  | t :: ts, s :: ss, p, q, stands, stands', labels => by
      obtain ⟨first, others⟩ := List.cons.inj labels
      rw [stands_unique t stands.1 stands'.1 first, standAll_unique ts stands.2 stands'.2 others]

end

mutual

/-- Where a change is confined to the tree of a node, and another tree stands there afterwards, all
trees above are revised. -/
theorem stands_revise (f : Forest v) (confined : Confined [g] v w) (node : v g = some n)
    {G : NodeTree NodeId} (label : G.label = g) (grown : w.Stands n.parent G) :
    (t : NodeTree NodeId) → (p : Option NodeId) → v.Stands p t →
    (t.label = g ∨ ¬Above v g t.label) → w.Stands p (t.revise g fun _ => G)
  | .node id data children, p, stands, place => by
      by_cases same : id = g
      · subst same
        have top := node.symm.trans stands.1
        rw [revise, if_pos rfl]
        rwa [Option.some.inj top] at grown
      · have out : ¬Above v g id := place.resolve_left same
        have record := (confined.node stands.1 (mt inside_singleton.1 out)).1
        rw [revise, if_neg same]
        refine ⟨record.trans ?_, standAll_revise f confined node label grown children (some id)
          stands.2 fun c mem => ?_⟩
        · rw [reviseAll_eq_map, List.map_map, Function.comp_def]
          simp only [label_revise fun _ _ => label]
        · by_cases own : c.label = g
          · exact .inl own
          · exact .inr fun above => out
              (above.of_parent (standAll_iff.1 stands.2 c mem).top rfl (Ne.symm own))

theorem standAll_revise (f : Forest v) (confined : Confined [g] v w) (node : v g = some n)
    {G : NodeTree NodeId} (label : G.label = g) (grown : w.Stands n.parent G) :
    (ts : List (NodeTree NodeId)) → (p : Option NodeId) → v.StandAll p ts →
    (∀ t ∈ ts, t.label = g ∨ ¬Above v g t.label) → w.StandAll p (reviseAll g (fun _ => G) ts)
  | [], _, _, _ => trivial
  | t :: ts, p, stands, place =>
      ⟨stands_revise f confined node label grown t p stands.1 (place t (by simp)),
        standAll_revise f confined node label grown ts p stands.2 fun s mem =>
          place s (by simp [mem])⟩

end

mutual

/-- The data of one node have changed. -/
theorem stands_redata {x : NodeId} {f : NodeData → NodeData}
    (own : ∀ n, v x = some n → w x = some { n with data := f n.data })
    (others : ∀ y, y ≠ x → w y = v y) : (t : NodeTree NodeId) → (p : Option NodeId) →
    v.Stands p t → t.labels.Nodup → w.Stands p (t.revise x (redata f))
  | .node id data children, p, stands, nodup => by
      obtain ⟨out, rest⟩ := List.nodup_cons.1 nodup
      by_cases same : id = x
      · subst same
        rw [revise, if_pos rfl]
        refine ⟨own _ stands.1, standAll_congr _ children (fun y mem => others y ?_) stands.2⟩
        rintro rfl
        exact out mem
      · rw [revise, if_neg same]
        refine ⟨(others id same).trans (stands.1.trans ?_),
          standAll_redata own others children (some id) stands.2 rest⟩
        rw [reviseAll_eq_map, List.map_map, Function.comp_def]
        simp only [label_revise fun s top => (by cases s; exact top : (redata f s).label = x)]

theorem standAll_redata {x : NodeId} {f : NodeData → NodeData}
    (own : ∀ n, v x = some n → w x = some { n with data := f n.data })
    (others : ∀ y, y ≠ x → w y = v y) : (ts : List (NodeTree NodeId)) → (p : Option NodeId) →
    v.StandAll p ts → (labelsAll ts).Nodup → w.StandAll p (reviseAll x (redata f) ts)
  | [], _, _, _ => trivial
  | t :: ts, p, stands, nodup => by
      obtain ⟨first, rest, -⟩ := List.nodup_append.1 nodup
      exact ⟨stands_redata own others t p stands.1 first,
        standAll_redata own others ts p stands.2 rest⟩

end

end View

namespace Document

open View

variable {d d' : Document} {g r : NodeId} {n : Node} {T G : NodeTree NodeId}

/-- Reading a tree above a node where a confined change has been made. -/
theorem tree_revise (f : d.view.Forest) (f' : d'.view.Forest) (confined : Confined [g] d.view d'.view)
    (node : d.view g = some n) (label : G.label = g) (grown : d'.view.Stands n.parent G)
    (read : d.tree r = .ok T) (place : r = g ∨ ¬d.view.Above g r) :
    d'.tree r = .ok (T.revise g fun _ => G) := by
  obtain ⟨m, there, rfl, stands⟩ := stands_of_treeWithin f _ r T read
  have revised := stands_revise f confined node label grown T _ stands place
  rw [← label_revise (fun _ _ => label) T]
  exact tree_of_stands revised (f'.nodup_labels _ _ revised)

/-- A tree whose nodes have not changed is read as before. -/
theorem tree_congr (f : d.view.Forest) (read : d.tree r = .ok T)
    (same : ∀ x n, d.view.Above r x → d.view x = some n → d'.view x = some n) :
    d'.tree r = .ok T := by
  obtain ⟨n, -, rfl, stands⟩ := stands_of_treeWithin f _ r T read
  refine tree_of_stands (stands.congr fun x listed => ?_) (f.nodup_labels T _ stands)
  obtain ⟨m, there⟩ := Option.ne_none_iff_exists'.1 (stands.live listed)
  rw [there, same x m (stands.above listed) there]

/-! ## What a node carries -/

/-- The trees below a node are these, up to the numbers of nodes. -/
def Carries (d : Document) (g : NodeId) (content : List (NodeTree Unit)) : Prop :=
  ∃ n kids, d.view g = some n ∧ n.children = kids.map NodeTree.label ∧
    d.view.StandAll (some g) kids ∧ kids.map shape = content

namespace Carries

variable {content more : List (NodeTree Unit)}

theorem nothing (node : d.view g = some n) (childless : n.children = []) : d.Carries g [] :=
  ⟨n, [], node, childless, trivial, rfl⟩

theorem of_tree (f : d.view.Forest) (read : d.tree g = .ok T) :
    d.Carries g (T.children.map shape) := by
  obtain ⟨n, node, rfl, stands⟩ := stands_of_treeWithin f _ g T read
  have top := node.symm.trans stands.top
  exact ⟨n, T.children, node, by rw [Option.some.inj top], stands.children, rfl⟩

theorem eq_nil (h : d.Carries g content) (host : d.view g = some n) (childless : n.children = []) :
    content = [] := by
  obtain ⟨n', kids, node, own, -, rfl⟩ := h
  rw [host] at node
  cases node
  rw [List.map_eq_nil_iff.1 (own.symm.trans childless)]
  rfl

/-- What a node carries begins with the tree of its first child. -/
theorem head (h : d.Carries g content) (host : d.view g = some n) {c : NodeId} {k : Node}
    (first : n.children.head? = some c) (child : d.view c = some k) :
    ∃ below kids, n.children = c :: kids.map NodeTree.label ∧
      d.view.StandAll (some g) (.node c k.data below :: kids) ∧
      content = .node () k.data (below.map shape) :: kids.map shape := by
  obtain ⟨n', trees, node, own, stands, rfl⟩ := h
  rw [host] at node
  cases node
  rw [own, List.head?_map, Option.map_eq_some_iff] at first
  obtain ⟨⟨id, data, below⟩, top, rfl⟩ := first
  obtain ⟨kids, rfl⟩ := List.head?_eq_some_iff.1 top
  have same := child.symm.trans stands.1.1
  rw [Option.some.inj same]
  exact ⟨below, kids, own, stands, by rw [List.map_cons, shape_node]⟩

/-- What a node carries depends on the node and those below it. -/
theorem congr (h : d.Carries g content) (same : ∀ x, d.view.Above g x → d'.view x = d.view x) :
    d'.Carries g content := by
  obtain ⟨n, kids, node, children, stands, shapes⟩ := h
  have below : d.view.Stands n.parent (.node g n.data kids) := by
    refine ⟨?_, stands⟩
    rw [node, ← children]
  exact ⟨n, kids, (same g .self).trans node, children, standAll_congr _ kids (fun x mem =>
    same x (below.above (List.mem_cons_of_mem g mem))) stands, shapes⟩

/-- Trees have come behind those that a node carries. -/
theorem gain (h : d.Carries g content) {us : List (NodeTree NodeId)} {m : Node}
    (host : d.view g = some n) (host' : d'.view g = some m)
    (children : m.children = n.children ++ us.map NodeTree.label)
    (grown : d'.view.StandAll (some g) us)
    (frame : ∀ x, d.view.Above g x → x ≠ g → d'.view x = d.view x) (f : d.view.Forest) :
    d'.Carries g (content ++ us.map shape) := by
  obtain ⟨n', kids, node, own, stands, shapes⟩ := h
  rw [host] at node
  cases node
  have top : d.view.Stands n.parent (.node g n.data kids) := by
    refine ⟨?_, stands⟩
    rw [host, ← own]
  refine ⟨m, kids ++ us, host', by rw [children, own, List.map_append],
    standAll_append.2 ⟨standAll_congr _ kids (fun x mem => ?_) stands, grown⟩,
    by rw [List.map_append, shapes]⟩
  refine frame x (top.above (List.mem_cons_of_mem g mem)) ?_
  rintro rfl
  exact f.not_mem_labelsAll stands mem

/-- The tree of a node, seen from what it carries. -/
theorem exists_tree (h : d.Carries g content) (node : d.view g = some n) :
    ∃ G, G.label = g ∧ d.view.Stands n.parent G ∧ G.data = n.data ∧
      G.children.map shape = content := by
  obtain ⟨n', kids, node', children, stands, shapes⟩ := h
  rw [node] at node'
  cases node'
  refine ⟨.node g n.data kids, rfl, ⟨?_, stands⟩, rfl, shapes⟩
  rw [node, ← children]

end Carries

end Document

end Stencil
