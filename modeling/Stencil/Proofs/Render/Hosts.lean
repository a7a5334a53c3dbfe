import Stencil.Proofs.Document.Surgery
import Stencil.Proofs.Render.Expansion

/-! # Hosts

The hosts that are found in a tree are its marked elements, in document order, unless a
block marker hides some of them. They are the same in all trees of one shape.
-/

namespace Stencil

open Markup NodeTree

mutual

/-- The hosts at and below a node that is not the root, in document order. What is below a
block marker belongs to another template. -/
def hostsAt {ι : Type} : NodeTree ι → List ι
  | .node id data children =>
      match data with
      | .element _ attributes =>
          (if hasMarker Marker.host attributes then [id] else []) ++
            if hasMarker Marker.block attributes then [] else hostsAmong children
      | _ => []

/-- The hosts at and below nodes in order. -/
def hostsAmong {ι : Type} : List (NodeTree ι) → List ι
  | [] => []
  | t :: ts => hostsAt t ++ hostsAmong ts

end

/-- The hosts of a tree in document order. -/
def hostsOf {ι : Type} : NodeTree ι → List ι
  | .node id data children =>
      match data with
      | .element _ attributes =>
          (if hasMarker Marker.host attributes then [id] else []) ++ hostsAmong children
      | _ => []

mutual

theorem hostsAt_eq {ι : Type} : (t : NodeTree ι) → blockless t = true →
    hostsAt t = (hostTrees t).map label
  | .node id data children, h => by
      rw [blockless, Bool.and_eq_true, Bool.not_eq_true'] at h
      have below := hostsAmong_eq children h.2
      cases data with
      | element name attributes =>
          have inside : hasMarker Marker.block attributes = false := h.1
          simp only [hostsAt, hostTrees, inside, below, List.map_append]
          split <;> rfl
      | text | comment | fragment | doctype => rfl

theorem hostsAmong_eq {ι : Type} : (ts : List (NodeTree ι)) → blocklessAll ts = true →
    hostsAmong ts = (hostTreesAmong ts).map label
  | [], _ => rfl
  | t :: ts, h => by
      rw [blocklessAll, Bool.and_eq_true] at h
      rw [hostsAmong, hostTreesAmong, hostsAt_eq t h.1, hostsAmong_eq ts h.2, List.map_append]

end

/-- Where nothing below the root is marked as a block, all marked elements are hosts. -/
theorem hostsOf_eq {ι : Type} {t : NodeTree ι} (h : blocklessAll t.children = true) :
    hostsOf t = (hostTrees t).map label := by
  cases t with
  | node id data children =>
      have below := hostsAmong_eq children h
      cases data with
      | element name attributes =>
          simp only [hostsOf, hostTrees, below, List.map_append]
          split <;> rfl
      | text | comment | fragment | doctype => rfl

mutual

theorem hostTrees_shape {ι : Type} : (t : NodeTree ι) →
    hostTrees t.shape = (hostTrees t).map shape
  | .node id data children => by
      have below := hostTreesAmong_shape children
      rw [shape_node]
      cases data with
      | element name attributes =>
          simp only [hostTrees, below, List.map_append]
          split
          · rw [List.map_singleton, shape_node]
          · rfl
      | text | comment | fragment | doctype => rfl

theorem hostTreesAmong_shape {ι : Type} : (ts : List (NodeTree ι)) →
    hostTreesAmong (ts.map shape) = (hostTreesAmong ts).map shape
  | [] => rfl
  | t :: ts => by
      rw [List.map_cons, hostTreesAmong, hostTreesAmong, hostTrees_shape t,
        hostTreesAmong_shape ts, List.map_append]

end

mutual

theorem blockless_shape {ι : Type} : (t : NodeTree ι) → blockless t.shape = blockless t
  | .node id data children => by
      rw [shape_node, blockless, blockless, blocklessAll_shape children]

theorem blocklessAll_shape {ι : Type} : (ts : List (NodeTree ι)) →
    blocklessAll (ts.map shape) = blocklessAll ts
  | [] => rfl
  | t :: ts => by
      rw [List.map_cons, blocklessAll, blocklessAll, blockless_shape t, blocklessAll_shape ts]

end

theorem isElement_of_hasMarker {name : String} {data : NodeData}
    (h : hasMarker name data.attributes = true) : data.isElement = true := by
  cases data with
  | element tag attributes => rfl
  | text | comment | fragment | doctype => cases h

mutual

/-- Hosts are marked nodes of the tree. -/
theorem marked_of_mem {ι : Type} (p : Option ι) : (t : NodeTree ι) → ∀ s ∈ hostTrees t,
    (∃ q, Within p t q s) ∧ hasMarker Marker.host s.data.attributes = true
  | .node id data children, s, mem => by
      cases data with
      | element name attributes =>
          rw [hostTrees] at mem
          rcases List.mem_append.1 mem with own | below
          · split at own
            · rw [List.mem_singleton.1 own]
              exact ⟨⟨p, .self⟩, ‹_›⟩
            · cases own
          · obtain ⟨t, listed, ⟨q, inside⟩, marked⟩ := marked_of_mem_among (some id) children s below
            exact ⟨⟨q, (Within.self.child listed).trans inside⟩, marked⟩
      | text | comment | fragment | doctype => cases mem

theorem marked_of_mem_among {ι : Type} (p : Option ι) : (ts : List (NodeTree ι)) →
    ∀ s ∈ hostTreesAmong ts,
      ∃ t ∈ ts, (∃ q, Within p t q s) ∧ hasMarker Marker.host s.data.attributes = true
  | [], s, mem => by cases mem
  | t :: ts, s, mem => by
      rcases List.mem_append.1 mem with first | others
      · exact ⟨t, List.mem_cons_self .., marked_of_mem p t s first⟩
      · obtain ⟨u, listed, inside⟩ := marked_of_mem_among p ts s others
        exact ⟨u, List.mem_cons_of_mem t listed, inside⟩

end

/-- Hosts are elements of the tree. -/
theorem within_hostTrees {ι : Type} (p : Option ι) (t : NodeTree ι) :
    ∀ s ∈ hostTrees t, (∃ q, Within p t q s) ∧ s.data.isElement = true := fun s mem =>
  (marked_of_mem p t s mem).imp_right isElement_of_hasMarker

mutual

theorem hostTrees_sublist {ι : Type} : (t : NodeTree ι) →
    ((hostTrees t).map label).Sublist t.labels
  | .node id data children => by
      have below := hostTreesAmong_sublist children
      cases data with
      | element name attributes =>
          rw [hostTrees]
          split
          · exact below.cons_cons id
          · exact below.trans (List.sublist_cons_self ..)
      | text | comment | fragment | doctype => exact List.nil_sublist _

theorem hostTreesAmong_sublist {ι : Type} : (ts : List (NodeTree ι)) →
    ((hostTreesAmong ts).map label).Sublist (labelsAll ts)
  | [] => .slnil
  | t :: ts => by
      rw [hostTreesAmong, List.map_append, labelsAll_cons]
      exact (hostTrees_sublist t).append (hostTreesAmong_sublist ts)

end

/-! ## Hosts with what is below them -/

mutual

/-- The hosts at and below a node that is not the root, each with what is below it. -/
def hostNodesAt {ι : Type} : NodeTree ι → List (NodeTree ι)
  | .node id data children =>
      match data with
      | .element name attributes =>
          (if hasMarker Marker.host attributes then [.node id (.element name attributes) children]
            else []) ++
            if hasMarker Marker.block attributes then [] else hostNodesAmong children
      | _ => []

def hostNodesAmong {ι : Type} : List (NodeTree ι) → List (NodeTree ι)
  | [] => []
  | t :: ts => hostNodesAt t ++ hostNodesAmong ts

end

/-- The hosts of a tree, each with what is below it. -/
def hostNodes {ι : Type} : NodeTree ι → List (NodeTree ι)
  | .node id data children =>
      match data with
      | .element name attributes =>
          (if hasMarker Marker.host attributes then [.node id (.element name attributes) children]
            else []) ++ hostNodesAmong children
      | _ => []

mutual

theorem map_label_hostNodesAt {ι : Type} : (t : NodeTree ι) →
    (hostNodesAt t).map label = hostsAt t
  | .node id data children => by
      have below := map_label_hostNodesAmong children
      cases data with
      | element name attributes =>
          simp only [hostNodesAt, hostsAt, List.map_append]
          congr 1
          · split <;> rfl
          · split
            · rfl
            · exact below
      | text | comment | fragment | doctype => rfl

theorem map_label_hostNodesAmong {ι : Type} : (ts : List (NodeTree ι)) →
    (hostNodesAmong ts).map label = hostsAmong ts
  | [] => rfl
  | t :: ts => by
      rw [hostNodesAmong, hostsAmong, List.map_append, map_label_hostNodesAt t,
        map_label_hostNodesAmong ts]

end

theorem map_label_hostNodes {ι : Type} (t : NodeTree ι) : (hostNodes t).map label = hostsOf t := by
  cases t with
  | node id data children =>
      cases data with
      | element name attributes =>
          simp only [hostNodes, hostsOf, List.map_append, map_label_hostNodesAmong children]
          split <;> rfl
      | text | comment | fragment | doctype => rfl

mutual

theorem hostNodesAt_shape {ι : Type} : (t : NodeTree ι) →
    hostNodesAt t.shape = (hostNodesAt t).map shape
  | .node id data children => by
      have below := hostNodesAmong_shape children
      rw [shape_node]
      cases data with
      | element name attributes =>
          simp only [hostNodesAt, List.map_append]
          congr 1
          · split
            · rw [List.map_singleton, shape_node]
            · rfl
          · split
            · rfl
            · exact below
      | text | comment | fragment | doctype => rfl

theorem hostNodesAmong_shape {ι : Type} : (ts : List (NodeTree ι)) →
    hostNodesAmong (ts.map shape) = (hostNodesAmong ts).map shape
  | [] => rfl
  | t :: ts => by
      rw [List.map_cons, hostNodesAmong, hostNodesAmong, hostNodesAt_shape t,
        hostNodesAmong_shape ts, List.map_append]

end

theorem hostNodes_shape {ι : Type} (t : NodeTree ι) : hostNodes t.shape = (hostNodes t).map shape := by
  cases t with
  | node id data children =>
      rw [shape_node]
      cases data with
      | element name attributes =>
          simp only [hostNodes, List.map_append, hostNodesAmong_shape children]
          split
          · rw [List.map_singleton, shape_node]
          · rfl
      | text | comment | fragment | doctype => rfl

mutual

theorem hostNodesAt_sublist {ι : Type} : (t : NodeTree ι) →
    (hostNodesAt t).Sublist (hostTrees t)
  | .node id data children => by
      have below := hostNodesAmong_sublist children
      cases data with
      | element name attributes =>
          rw [hostNodesAt, hostTrees]
          refine (List.Sublist.refl _).append ?_
          split
          · exact List.nil_sublist _
          · exact below
      | text | comment | fragment | doctype => exact List.nil_sublist _

theorem hostNodesAmong_sublist {ι : Type} : (ts : List (NodeTree ι)) →
    (hostNodesAmong ts).Sublist (hostTreesAmong ts)
  | [] => .slnil
  | t :: ts => (hostNodesAt_sublist t).append (hostNodesAmong_sublist ts)

end

theorem hostNodes_sublist {ι : Type} (t : NodeTree ι) : (hostNodes t).Sublist (hostTrees t) := by
  cases t with
  | node id data children =>
      cases data with
      | element name attributes =>
          rw [hostNodes, hostTrees]
          exact (List.Sublist.refl _).append (hostNodesAmong_sublist children)
      | text | comment | fragment | doctype => exact List.nil_sublist _

theorem hostNodes_subset {ι : Type} (t : NodeTree ι) : hostNodes t ⊆ hostTrees t :=
  (hostNodes_sublist t).subset

theorem length_hostsOf {ι κ : Type} {t : NodeTree ι} {s : NodeTree κ} (h : t.shape = s.shape) :
    (hostsOf t).length = (hostsOf s).length := by
  have count : ∀ {ι : Type} (t : NodeTree ι), (hostsOf t).length = (hostNodes t.shape).length := by
    intro ι t
    rw [hostNodes_shape, List.length_map, ← map_label_hostNodes, List.length_map]
  rw [count t, h, count s]

theorem hostsOf_subset (C : NodeTree NodeId) : hostsOf C ⊆ C.labels := by
  intro x mem
  rw [← map_label_hostNodes] at mem
  obtain ⟨s, listed, rfl⟩ := List.mem_map.1 mem
  obtain ⟨⟨q, within⟩, -⟩ := within_hostTrees none C s (hostNodes_subset C listed)
  exact within.label_mem

/-- A host of a standing tree is an element of it. -/
theorem View.Stands.host {v : View} {p : Option NodeId} {C : NodeTree NodeId} {x : NodeId}
    (h : v.Stands p C) (mem : x ∈ hostsOf C) :
    View.Above v C.label x ∧ ∃ n, v x = some n ∧ n.data.isElement = true := by
  rw [← map_label_hostNodes] at mem
  obtain ⟨s, listed, rfl⟩ := List.mem_map.1 mem
  obtain ⟨⟨q, within⟩, element⟩ := within_hostTrees p C s (hostNodes_subset C listed)
  exact ⟨h.above within.label_mem, _, (h.within within).top, element⟩

/-! ## Slots that fit -/

/-- What fits a host depends on its shape only. -/
theorem slotFits_shape {ι : Type} {host : NodeTree ι} {slot : List (Reference CompiledTemplate)}
    (h : SlotFits host.shape slot) : SlotFits host slot where
  single := h.single
  empty r mem content := by
    have none_there := h.empty r mem content
    cases host
    rw [shape_node] at none_there
    exact List.map_eq_nil_iff.1 none_there
  distinct := h.distinct
  present := by simpa using h.present
  builtIn := h.builtIn

theorem hosts_fit {C : NodeTree NodeId} {slots : List (List (Reference CompiledTemplate))}
    (h : List.Forall₂ SlotFits (hostTrees C.shape) slots) :
    List.Forall₂ SlotFits (hostTrees C) slots := by
  rw [hostTrees_shape, List.forall₂_map_left_iff] at h
  exact h.imp fun _ _ fits => slotFits_shape fits

end Stencil
