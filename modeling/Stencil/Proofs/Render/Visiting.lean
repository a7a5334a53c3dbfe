import Stencil.Proofs.Render.Mold

/-! # Visited elements

The hosts of a tree, which are found by going through it and leaving out what is below blocks, are
the marked elements of which no other node above but the root is marked as a block, in document
order. A tree from which some of its nodes have lost their markers stands wherever the nodes have
lost them.
-/

namespace Stencil

open Markup NodeTree

/-! ## Lineages -/

/-- A node of a tree, with what is above it from the root on. -/
structure Lineage (ι : Type) where
  above : List NodeData
  node : ι
  data : NodeData

/-- A node that is marked as a host, and is not below a node other than the root that is marked as
a block. -/
def Lineage.visited {ι : Type} (l : Lineage ι) : Bool :=
  hasMarker Marker.host l.data.attributes &&
    l.above.tail.all fun data => !hasMarker Marker.block data.attributes

namespace Markup.NodeTree

variable {ι : Type}

mutual

/-- The nodes of a tree in document order. -/
def lineages (above : List NodeData) : NodeTree ι → List (Lineage ι)
  | .node id data children => ⟨above, id, data⟩ :: lineagesAmong (above ++ [data]) children

def lineagesAmong (above : List NodeData) : List (NodeTree ι) → List (Lineage ι)
  | [] => []
  | t :: ts => lineages above t ++ lineagesAmong above ts

end

/-- The visited nodes of a tree that has these nodes above it. -/
def visitedBelow (above : List NodeData) (t : NodeTree ι) : List ι :=
  ((t.lineages above).filter Lineage.visited).map Lineage.node

/-- The visited nodes of a tree in document order. -/
def visited (t : NodeTree ι) : List ι := t.visitedBelow []

theorem visitedAmong_eq (above : List NodeData) (ts : List (NodeTree ι)) :
    ((lineagesAmong above ts).filter Lineage.visited).map Lineage.node =
      ts.flatMap (visitedBelow above) := by
  induction ts with
  | nil => rfl
  | cons t ts ih =>
      rw [lineagesAmong, List.filter_append, List.map_append, ih, List.flatMap_cons, visitedBelow]

theorem visitedBelow_node (above : List NodeData) (id : ι) (data : NodeData)
    (children : List (NodeTree ι)) :
    (node id data children).visitedBelow above =
      (if Lineage.visited ⟨above, id, data⟩ then [id] else []) ++
        children.flatMap (visitedBelow (above ++ [data])) := by
  rw [visitedBelow, lineages, ← visitedAmong_eq, List.filter_cons]
  split <;> rfl

mutual

theorem visitedBelow_of_block {above : List NodeData}
    (block : ∃ data ∈ above.tail, hasMarker Marker.block data.attributes = true) :
    (t : NodeTree ι) → t.visitedBelow above = []
  | .node id data children => by
      obtain ⟨outer, mem, marked⟩ := block
      have out : Lineage.visited ⟨above, id, data⟩ = false := by
        rw [Lineage.visited, Bool.and_eq_false_iff]
        exact .inr (List.all_eq_false.2 ⟨outer, mem, by simp [marked]⟩)
      have below : ∃ data' ∈ (above ++ [data]).tail, hasMarker Marker.block data'.attributes = true := by
        refine ⟨outer, ?_, marked⟩
        cases above with
        | nil => cases mem
        | cons root above => exact List.mem_append_left _ mem
      rw [visitedBelow_node, out, visitedAmong_of_block below children]
      rfl

theorem visitedAmong_of_block {above : List NodeData}
    (block : ∃ data ∈ above.tail, hasMarker Marker.block data.attributes = true) :
    (ts : List (NodeTree ι)) → ts.flatMap (visitedBelow above) = []
  | [] => rfl
  | t :: ts => by
      rw [List.flatMap_cons, visitedBelow_of_block block t, visitedAmong_of_block block ts]
      rfl

end

end Markup.NodeTree

/-! ## Hosts -/

/-- A node below another one that is no element has no children. -/
theorem View.Stands.childless {v : View} (f : v.Forest) {p id : NodeId} {data : NodeData}
    {children : List (NodeTree NodeId)} (stands : v.Stands (some p) (.node id data children))
    (other : data.isElement = false) : children = [] := by
  by_contra some_child
  have container := f.container stands.1 (by simpa using some_child)
  cases data with
  | element | text | comment | doctype => simp_all [NodeData.isElement, NodeData.isContainer]
  | fragment => cases f.fragment_parent stands.1 rfl

mutual

/-- The hosts at and below a node that is not below a block. -/
theorem hostsAt_eq_visited {v : View} (f : v.Forest) {above : List NodeData} (inner : above ≠ [])
    (free : ∀ data ∈ above.tail, hasMarker Marker.block data.attributes = false) {p : NodeId} :
    (t : NodeTree NodeId) → v.Stands (some p) t → hostsAt t = t.visitedBelow above
  | .node id data children, stands => by
      have own : Lineage.visited ⟨above, id, data⟩ = hasMarker Marker.host data.attributes := by
        rw [Lineage.visited, List.all_eq_true.2 (by simpa using free), Bool.and_true]
      rw [visitedBelow_node, own]
      cases element : data.isElement with
      | false =>
          rw [stands.childless f element]
          cases data with
          | element => cases element
          | text | comment | fragment | doctype => rfl
      | true =>
          cases data with
          | text | comment | fragment | doctype => cases element
          | element tag attributes =>
              rw [hostsAt, NodeData.attributes]
              refine congrArg _ ?_
              have tail : (above ++ [NodeData.element tag attributes]).tail =
                  above.tail ++ [NodeData.element tag attributes] := List.tail_append_of_ne_nil inner
              cases block : hasMarker Marker.block attributes with
              | true =>
                  exact (visitedAmong_of_block ⟨.element tag attributes, by simp [tail], block⟩ children).symm
              | false =>
                  refine hostsAmong_eq_visited f (List.append_ne_nil_of_left_ne_nil inner _) ?_ children stands.2
                  rw [tail, List.forall_mem_append]
                  exact ⟨free, List.forall_mem_singleton.2 block⟩

theorem hostsAmong_eq_visited {v : View} (f : v.Forest) {above : List NodeData} (inner : above ≠ [])
    (free : ∀ data ∈ above.tail, hasMarker Marker.block data.attributes = false) {p : NodeId} :
    (ts : List (NodeTree NodeId)) → v.StandAll (some p) ts →
      hostsAmong ts = ts.flatMap (visitedBelow above)
  | [], _ => rfl
  | t :: ts, stands => by
      rw [hostsAmong, List.flatMap_cons, hostsAt_eq_visited f inner free t stands.1,
        hostsAmong_eq_visited f inner free ts stands.2]

end

/-- The hosts of the tree of an element are its visited nodes. -/
theorem hostsOf_eq_visited {v : View} (f : v.Forest) {p : Option NodeId} {T : NodeTree NodeId}
    (stands : v.Stands p T) (element : T.data.isElement = true) : hostsOf T = T.visited := by
  obtain ⟨id, data, children⟩ := T
  cases data with
  | text | comment | fragment | doctype => cases element
  | element tag attributes =>
      have own : Lineage.visited ⟨[], id, .element tag attributes⟩ = hasMarker Marker.host attributes :=
        Bool.and_true _
      rw [visited, visitedBelow_node, own, hostsOf]
      exact congrArg _ (hostsAmong_eq_visited f (List.cons_ne_nil _ _) (List.forall_mem_nil _) children stands.2)

/-! ## Trees without markers -/

namespace Markup.NodeTree

variable {ι : Type} [DecidableEq ι]

mutual

/-- The tree of which some nodes have lost their markers. -/
def relieve (hosts : List ι) : NodeTree ι → NodeTree ι
  | .node id data children =>
      .node id (if id ∈ hosts then data.unmarked else data) (relieveAll hosts children)

def relieveAll (hosts : List ι) : List (NodeTree ι) → List (NodeTree ι)
  | [] => []
  | t :: ts => relieve hosts t :: relieveAll hosts ts

end

@[simp] theorem label_relieve (hosts : List ι) (t : NodeTree ι) : (t.relieve hosts).label = t.label := by
  cases t
  rfl

theorem map_label_relieveAll (hosts : List ι) (ts : List (NodeTree ι)) :
    (relieveAll hosts ts).map label = ts.map label := by
  induction ts with
  | nil => rfl
  | cons t ts ih => rw [relieveAll, List.map_cons, List.map_cons, label_relieve, ih]

end Markup.NodeTree

namespace View

variable {v w : View} {hosts : List NodeId}

mutual

/-- A tree stands without the markers of the nodes that have lost theirs. -/
theorem Stands.relieve (nodes : ∀ {x n}, v x = some n →
      w x = some { n with data := if x ∈ hosts then n.data.unmarked else n.data })
    {p : Option NodeId} : (t : NodeTree NodeId) → v.Stands p t → w.Stands p (t.relieve hosts)
  | .node id data children, stands => by
      refine ⟨?_, StandAll.relieve nodes children stands.2⟩
      rw [nodes stands.1, map_label_relieveAll]

theorem StandAll.relieve (nodes : ∀ {x n}, v x = some n →
      w x = some { n with data := if x ∈ hosts then n.data.unmarked else n.data })
    {p : Option NodeId} : (ts : List (NodeTree NodeId)) → v.StandAll p ts →
      w.StandAll p (relieveAll hosts ts)
  | [], _ => trivial
  | t :: ts, stands => ⟨Stands.relieve nodes t stands.1, StandAll.relieve nodes ts stands.2⟩

end

end View

end Stencil
