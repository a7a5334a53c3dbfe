import Stencil.Proofs.Compile.Pieces
import Stencil.Proofs.Render.BindingTable
import Stencil.Proofs.Render.Hosts

/-! # The shape of compiled markup

In the copy that is written for a template the marked elements are those that have received
references, and every host is as its slot says: the attributes that are bound are empty, and
so is the host where its content is bound or repeated.
-/

namespace Stencil

open Markup NodeTree View

/-! ## Slots -/

/-- What the compiler puts into the slot of a host: bindings of attributes, which it has
emptied, each once, and then at most one reference for the content, which it has taken out. -/
structure SlotMade {ι : Type} (host : NodeTree ι) (slot : Slot) : Prop where
  filled : slot ≠ []
  ordered : slot = slot.filter (fun r => !r.isContent) ++ slot.filter Reference.isContent
  emptied : ∀ name ∈ slot.filterMap Reference.attr?,
    host.data.attributes.lookup name = some (.string "")
  distinct : (slot.filterMap Reference.attr?).Nodup
  single : (slot.filter Reference.isContent).length ≤ 1
  empty : ∀ r ∈ slot, r.isContent = true → host.children = []

/-- What the compiler leaves of a node: neither its texts nor its attributes hold a directive. -/
def DataPlain : NodeData → Prop
  | .text value => Text.Plain value
  | data => ∀ entry ∈ data.attributes, Text.Plain entry.2.text

mutual

/-- The second tree has a node for each node of the first, and marked are exactly those in whose
place there are references. -/
def Marks {ι : Type} : NodeTree Slot → NodeTree ι → Prop
  | .node slot _ children, .node _ data children' =>
      (hasMarker Marker.host data.attributes = true ↔ slot ≠ []) ∧ MarksAll children children'

def MarksAll {ι : Type} : List (NodeTree Slot) → List (NodeTree ι) → Prop
  | [], us => us = []
  | t :: ts, us => ∃ first more, us = first :: more ∧ Marks t first ∧ MarksAll ts more

end

/-- A copy stands in the document whose markup is that of the template. It is the tree of the
plan with a marker on each node that has references there, and on no other; the slots of the
template are these references in document order, and fit their hosts. It holds neither blocks
nor directives. So it is for every template in it, with the plan of its block. -/
inductive Emitted (v : View) : Plan → CompiledTemplate → Prop where
  | intro {plan : Plan} {c : CompiledTemplate} {t : NodeTree NodeId} (stands : v.Stands none t)
      (markup : c.markup = Compile.abbreviate (t.print false))
      (copied : t.shape = Plan.mark plan.tree) (marks : Marks plan.tree t)
      (held : c.slots = plan.tree.labels.filter fun slot => !slot.isEmpty)
      (slots : List.Forall₂ SlotMade (hostTrees t) c.slots) (unblocked : blockless t = true)
      (plain : t.Each DataPlain) (count : c.parts.length = plan.parts.length)
      (parts : ∀ pair ∈ plan.parts.zip c.parts, Emitted v pair.1 pair.2) : Emitted v plan c

/-- What fits a host has its place in every copy of the host. -/
theorem slotMade_shape {ι : Type} {host : NodeTree ι} {slot : Slot} (h : SlotMade host.shape slot) :
    SlotMade host slot where
  filled := h.filled
  ordered := h.ordered
  emptied := by simpa using h.emptied
  distinct := h.distinct
  single := h.single
  empty r mem content := by
    have none_there := h.empty r mem content
    cases host
    rw [shape_node] at none_there
    exact List.map_eq_nil_iff.1 none_there

mutual

theorem each_shape {ι : Type} {P : NodeData → Prop} : (t : NodeTree ι) → t.shape.Each P → t.Each P
  | .node id data children, h => by
      rw [shape_node] at h
      exact ⟨h.1, eachAll_shape children h.2⟩

theorem eachAll_shape {ι : Type} {P : NodeData → Prop} : (ts : List (NodeTree ι)) →
    EachAll P (ts.map shape) → EachAll P ts
  | [], _ => trivial
  | t :: ts, h => ⟨each_shape t h.1, eachAll_shape ts h.2⟩

end

/-! ## Attributes -/

theorem hasMarker_eq_false {name : String} {entries : List (String × Value)} :
    hasMarker name entries = false ↔ name ∉ entries.map Prod.fst := by
  rw [← Hosts.lookup_eq_none, hasMarker, Option.isSome_eq_false_iff, Option.isNone_iff_eq_none]

theorem hasMarker_eq_false_of_blockOf? {entries : List (String × Value)}
    (h : Compile.blockOf? entries = none) : hasMarker Marker.block entries = false := by
  rw [hasMarker, Option.map_eq_none_iff.1 h]
  rfl

namespace Plan

open Compile

variable {s : Settings}

/-- What is left of attributes: those with references are empty and the others hold no
directive, block markers apart. -/
structure Emptied (attributes kept : List (String × Value)) (slot : Slot) : Prop where
  names : kept.map Prod.fst = attributes.map Prod.fst
  bindings : ∀ r ∈ slot, r.isContent = false
  bound : (slot.filterMap Reference.attr?).Sublist (attributes.map Prod.fst)
  unblocked : Marker.block ∉ slot.filterMap Reference.attr?
  empty : ∀ entry ∈ kept, entry.1 ∈ slot.filterMap Reference.attr? → entry.2 = .string ""
  plain : ∀ entry ∈ kept, entry.1 ≠ Marker.block → Text.Plain entry.2.text

theorem emptied_nil : Emptied [] [] [] :=
  ⟨rfl, by simp, .slnil, by simp, by simp, by simp⟩

theorem binding_attr {source : Source} {o : Occurrence} {attr : Option String} {b : Binding}
    (h : binding source o attr = .ok b) : b.attr = attr := by
  unfold binding at h
  cases known : o.directive source with
  | error e => simp [known, Except.map] at h
  | ok directive =>
      simp only [known, Except.map, Except.ok.injEq] at h
      subst h
      rfl

/-- One attribute is bound and emptied, or has nothing to bind. -/
theorem ofAttribute_cases {name : String} {value left : Value} {slot : Slot}
    (h : ofAttribute s name value = .ok (left, slot)) :
    (∃ b, slot = [.binding b] ∧ b.attr = some name ∧ left = .string "" ∧ name ≠ Marker.block) ∨
      slot = [] ∧ (name ≠ Marker.block → Text.Plain left.text) := by
  unfold ofAttribute at h
  by_cases block : name = Marker.block
  · rw [if_pos block] at h
    cases h
    exact .inr ⟨rfl, fun other => (other block).elim⟩
  · rw [if_neg block] at h
    obtain ⟨first, found, h⟩ := bind_eq_ok.1 h
    cases first with
    | none =>
        cases h
        exact .inr ⟨rfl, fun _ => Occurrence.first?_eq_ok_none found⟩
    | some o =>
        obtain ⟨b, bound, h⟩ := bind_eq_ok.1 h
        cases h
        exact .inl ⟨b, rfl, binding_attr bound, rfl, block⟩

theorem emptied_ofAttributes {attributes kept : List (String × Value)} {slot : Slot}
    (distinct : (attributes.map Prod.fst).Nodup)
    (h : ofAttributes s attributes = .ok (kept, slot)) : Emptied attributes kept slot := by
  induction attributes generalizing kept slot with
  | nil =>
      cases h
      exact emptied_nil
  | cons entry more ih =>
      obtain ⟨name, value⟩ := entry
      rw [ofAttributes] at h
      obtain ⟨⟨left, first⟩, known, h⟩ := bind_eq_ok.1 h
      obtain ⟨⟨others, rest⟩, later, h⟩ := bind_eq_ok.1 h
      cases h
      obtain ⟨new, distinct⟩ := List.nodup_cons.1 distinct
      have inner := ih distinct later
      rcases ofAttribute_cases known with ⟨b, rfl, attr, rfl, other⟩ | ⟨rfl, plain⟩
      · have taken : ([Reference.binding b] ++ rest).filterMap Reference.attr? =
            name :: rest.filterMap Reference.attr? := by
          simp [Reference.attr?, attr]
        refine ⟨by simp [inner.names], ?_, ?_, ?_, ?_, ?_⟩
        · intro r mem
          rcases List.mem_cons.1 mem with rfl | mem
          · simp [Reference.isContent, attr]
          · exact inner.bindings r mem
        · rw [taken]
          exact inner.bound.cons_cons name
        · rw [taken, List.mem_cons, not_or]
          exact ⟨other.symm, inner.unblocked⟩
        · intro entry mem bound
          rw [taken] at bound
          rcases List.mem_cons.1 mem with rfl | mem
          · rfl
          · refine inner.empty entry mem ((List.mem_cons.1 bound).resolve_left fun same => new ?_)
            rw [← inner.names, ← same]
            exact List.mem_map.2 ⟨entry, mem, rfl⟩
        · intro entry mem
          rcases List.mem_cons.1 mem with rfl | mem
          · exact fun _ => Text.plain_empty
          · exact inner.plain entry mem
      · refine ⟨by simp [inner.names], inner.bindings, inner.bound.trans (List.sublist_cons_self ..),
          inner.unblocked, ?_, ?_⟩
        · intro entry mem bound
          rcases List.mem_cons.1 mem with rfl | mem
          · exact (new (inner.bound.subset bound)).elim
          · exact inner.empty entry mem bound
        · intro entry mem
          rcases List.mem_cons.1 mem with rfl | mem
          · exact plain
          · exact inner.plain entry mem

/-! ## Nodes -/

/-- A node of a plan: what is no host is unmarked, and the slot of a host fits it. -/
structure NodeMade (t : NodeTree Slot) : Prop where
  element : t.label ≠ [] → t.data.isElement = true
  leaf : t.data.isElement = false → t.children = []
  unmarked : hasMarker Marker.host t.data.attributes = false
  unblocked : hasMarker Marker.block t.data.attributes = false
  plain : DataPlain t.data
  fits : t.label ≠ [] → SlotMade t t.label

theorem attr?_eq_none {r : Reference CompiledTemplate} (content : r.isContent = true) :
    r.attr? = none := by
  cases r with
  | binding b => exact Option.isNone_iff_eq_none.1 content
  | template t => rfl

/-- An element with its bound attributes, and possibly a reference for its content. -/
theorem Emptied.node {attributes kept : List (String × Value)} {slot : Slot}
    (e : Emptied attributes kept slot) (distinct : (attributes.map Prod.fst).Nodup)
    (unmarked : hasMarker Marker.host attributes = false) (name : String) {content : Slot}
    {ts : List (NodeTree Slot)} (contents : ∀ r ∈ content, r.isContent = true)
    (single : content.length ≤ 1) (empty : content ≠ [] → ts = []) :
    NodeMade (.node (slot ++ content)
      (.element name (kept.filter fun entry => entry.1 != Marker.block)) ts) := by
  have others : ∀ entry ∈ kept.filter fun entry => entry.1 != Marker.block,
      entry ∈ kept ∧ entry.1 ≠ Marker.block := by
    intro entry mem
    obtain ⟨listed, other⟩ := List.mem_filter.1 mem
    exact ⟨listed, by simpa using other⟩
  have attrs : (slot ++ content).filterMap Reference.attr? = slot.filterMap Reference.attr? := by
    rw [List.filterMap_append, List.filterMap_eq_nil_iff.2 fun r mem => attr?_eq_none (contents r mem),
      List.append_nil]
  have inContent : (slot ++ content).filter Reference.isContent = content := by
    rw [List.filter_append, List.filter_eq_nil_iff.2 fun r mem => by simp [e.bindings r mem],
      List.filter_eq_self.2 contents, List.nil_append]
  have notContent : (slot ++ content).filter (fun r => !r.isContent) = slot := by
    rw [List.filter_append, List.filter_eq_self.2 fun r mem => by simp [e.bindings r mem],
      List.filter_eq_nil_iff.2 fun r mem => by simp [contents r mem], List.append_nil]
  have names : (kept.map Prod.fst).Nodup := e.names ▸ distinct
  refine {
    element := fun _ => rfl
    leaf := nofun
    unmarked := ?_
    unblocked := ?_
    plain := fun entry mem => e.plain entry (others entry mem).1 (others entry mem).2
    fits := fun filled => ⟨filled, ?_, fun bound mem => ?_, ?_, ?_, fun r mem isContent => ?_⟩ }
  · rw [hasMarker_eq_false] at unmarked ⊢
    intro mem
    obtain ⟨entry, listed, same⟩ := List.mem_map.1 mem
    exact unmarked (e.names ▸ same ▸ List.mem_map_of_mem (others entry listed).1)
  · refine hasMarker_eq_false.2 fun mem => ?_
    obtain ⟨entry, listed, same⟩ := List.mem_map.1 mem
    exact (others entry listed).2 same
  · rw [NodeTree.label, notContent, inContent]
  · -- a bound attribute is among those that are left, and its value is empty there
    have bound' : bound ∈ slot.filterMap Reference.attr? := attrs ▸ mem
    obtain ⟨entry, listed, rfl⟩ := List.mem_map.1 (e.names ▸ e.bound.subset bound')
    have left : entry ∈ kept.filter fun entry => entry.1 != Marker.block := by
      refine List.mem_filter.2 ⟨listed, ?_⟩
      have other : entry.1 ≠ Marker.block := fun same => e.unblocked (same ▸ bound')
      simpa using other
    rw [← e.empty entry listed bound']
    exact lookup_of_mem (names.sublist (List.filter_sublist.map _)) left
  · rw [NodeTree.label, attrs]
    exact distinct.sublist e.bound
  · rw [NodeTree.label, inContent]
    exact single
  · refine empty fun none_there => ?_
    have listed := List.mem_filter.2 ⟨mem, isContent⟩
    rw [NodeTree.label, inContent, none_there] at listed
    cases listed

theorem Emptied.filter_block {attributes kept : List (String × Value)} {slot : Slot}
    (e : Emptied attributes kept slot) (unblocked : hasMarker Marker.block attributes = false) :
    (kept.filter fun entry => entry.1 != Marker.block) = kept := by
  rw [hasMarker_eq_false, ← e.names] at unblocked
  exact Document.filter_ne_of_not_mem unblocked

mutual

/-- Every node of a tree is made so. -/
def Made : NodeTree Slot → Prop
  | .node slot data children => NodeMade (.node slot data children) ∧ MadeAll children

def MadeAll : List (NodeTree Slot) → Prop
  | [] => True
  | t :: ts => Made t ∧ MadeAll ts

end

theorem madeAll_append {ts us : List (NodeTree Slot)} (h : MadeAll ts) (k : MadeAll us) :
    MadeAll (ts ++ us) := by
  induction ts with
  | nil => exact k
  | cons t ts ih => exact ⟨h.1, ih h.2⟩

/-! ## Marked copies -/

/-- The marker of a host does not stand in the way of its slot. -/
theorem slotMade_mark {slot own : Slot} {name : String} {attributes : List (String × Value)}
    {ts : List (NodeTree Slot)} (h : SlotMade (.node slot (.element name attributes) ts) own) :
    SlotMade (.node () (markData (.element name attributes)) (markAll ts)) own where
  filled := h.filled
  ordered := h.ordered
  emptied bound mem := by
    have there : attributes.lookup bound = some (.string "") := h.emptied bound mem
    change (Value.putField Marker.host (.string "") attributes).lookup bound = _
    rw [Document.lookup_putField, there, ite_self]
  distinct := h.distinct
  single := h.single
  empty r mem content := by
    obtain rfl : ts = [] := h.empty r mem content
    rfl

theorem hasMarker_markData (attributes : List (String × Value)) :
    hasMarker Marker.host (Value.putField Marker.host (.string "") attributes) = true := by
  rw [hasMarker, Document.lookup_putField, if_pos rfl]
  rfl

mutual

theorem hostTrees_mark : (t : NodeTree Slot) → Made t →
    List.Forall₂ SlotMade (hostTrees (mark t)) ((hosts t).map label)
  | .node slot data children, h => by
      have below := hostTreesAmong_mark children h.2
      cases data with
      | element name attributes =>
          cases slot with
          | nil =>
              have unmarked : hasMarker Marker.host attributes = false := h.1.unmarked
              simpa [mark, hostTrees, hosts, unmarked] using below
          | cons r rs =>
              have own := slotMade_mark (h.1.fits nofun)
              simp only [mark, markData, hostTrees, hosts, hasMarker_markData, List.isEmpty_cons,
                Bool.false_eq_true, if_false, if_true, List.map_append, List.map_cons, List.map_nil]
              exact List.rel_append (.cons own .nil) below
      | text value | comment value | fragment | doctype value =>
          have leaf : children = [] := h.1.leaf rfl
          have bare : slot = [] := by
            refine Classical.byContradiction fun filled => ?_
            cases h.1.element filled
          subst leaf bare
          exact .nil

theorem hostTreesAmong_mark : (ts : List (NodeTree Slot)) → MadeAll ts →
    List.Forall₂ SlotMade (hostTreesAmong (markAll ts)) ((hostsAll ts).map label)
  | [], _ => .nil
  | t :: ts, h => by
      rw [markAll, hostTreesAmong, hostsAll, List.map_append]
      exact List.rel_append (hostTrees_mark t h.1) (hostTreesAmong_mark ts h.2)

end

theorem attributes_markData {data : NodeData} (element : data.isElement = true) :
    (markData data).attributes = Value.putField Marker.host (.string "") data.attributes := by
  cases data with
  | element name attributes => rfl
  | _ => cases element

mutual

theorem blockless_mark : (t : NodeTree Slot) → Made t → blockless (mark t) = true
  | .node slot data children, h => by
      have unblocked : hasMarker Marker.block data.attributes = false := h.1.unblocked
      rw [mark, blockless, blocklessAll_mark children h.2, Bool.and_true, Bool.not_eq_true']
      split
      · exact unblocked
      · rename_i filled
        have element : data.isElement = true :=
          h.1.element fun bare => filled (List.isEmpty_iff.2 bare)
        rw [attributes_markData element, hasMarker, Document.lookup_putField, if_neg (by decide)]
        exact unblocked

theorem blocklessAll_mark : (ts : List (NodeTree Slot)) → MadeAll ts →
    blocklessAll (markAll ts) = true
  | [], _ => rfl
  | t :: ts, h => by
      rw [markAll, blocklessAll, blockless_mark t h.1, blocklessAll_mark ts h.2, Bool.and_true]

end

theorem mem_putField {key : String} {value : Value} {entries : List (String × Value)}
    {entry : String × Value} (mem : entry ∈ Value.putField key value entries) :
    entry = (key, value) ∨ entry ∈ entries := by
  induction entries with
  | nil => exact .inl (List.mem_singleton.1 mem)
  | cons first more ih =>
      obtain ⟨k, v⟩ := first
      rw [Value.putField] at mem
      split at mem
      · rename_i same
        subst same
        exact (List.mem_cons.1 mem).imp_right (List.mem_cons_of_mem _)
      · rcases List.mem_cons.1 mem with rfl | mem
        · exact .inr (by simp)
        · exact (ih mem).imp_right (List.mem_cons_of_mem _)

theorem dataPlain_markData {data : NodeData} (h : DataPlain data) : DataPlain (markData data) := by
  cases data with
  | element name attributes =>
      intro entry mem
      rcases mem_putField mem with rfl | mem
      · exact Text.plain_empty
      · exact h entry mem
  | text | comment | fragment | doctype => exact h

mutual

theorem plain_mark : (t : NodeTree Slot) → Made t → (mark t).Each DataPlain
  | .node slot data children, h => by
      refine ⟨?_, plainAll_mark children h.2⟩
      split
      · exact h.1.plain
      · exact dataPlain_markData h.1.plain

theorem plainAll_mark : (ts : List (NodeTree Slot)) → MadeAll ts → EachAll DataPlain (markAll ts)
  | [], _ => trivial
  | t :: ts, h => ⟨plain_mark t h.1, plainAll_mark ts h.2⟩

end

mutual

/-- In a copy of the marked tree there are markers where the tree has references. -/
theorem marks_of_shape {ι : Type} : (t : NodeTree Slot) → Made t → (u : NodeTree ι) →
    u.shape = mark t → Marks t u
  | .node slot data children, made, .node id data' us, same => by
      rw [shape_node, mark, NodeTree.node.injEq] at same
      obtain ⟨-, rfl, below⟩ := same
      refine ⟨?_, marksAll_of_shape children made.2 us below⟩
      cases slot with
      | nil => simp [show hasMarker Marker.host data.attributes = false from made.1.unmarked]
      | cons r rs =>
          have element : data.isElement = true := made.1.element (List.cons_ne_nil r rs)
          rw [List.isEmpty_cons, if_neg Bool.false_ne_true, attributes_markData element,
            hasMarker_markData]
          exact iff_of_true rfl (List.cons_ne_nil r rs)

theorem marksAll_of_shape {ι : Type} : (ts : List (NodeTree Slot)) → MadeAll ts →
    (us : List (NodeTree ι)) → us.map shape = markAll ts → MarksAll ts us
  | [], _, us, same => List.map_eq_nil_iff.1 same
  | t :: ts, made, us, same => by
      rw [markAll] at same
      obtain ⟨first, more, rfl, one, others⟩ := List.map_eq_cons_iff.1 same
      exact ⟨first, more, rfl, marks_of_shape t made.1 first one,
        marksAll_of_shape ts made.2 more others⟩

end

/-! ## Parts -/

/-- The template that is repeated, if it is that to which a reference refers. -/
def template? : Reference CompiledTemplate → Option CompiledTemplate
  | .template p => some p
  | .binding _ => none

/-- The templates to which trees refer. -/
def partsOf (ts : List (NodeTree Slot)) : List CompiledTemplate :=
  ((hostsAll ts).map label).flatten.filterMap template?

theorem partsOf_append (ts us : List (NodeTree Slot)) :
    partsOf (ts ++ us) = partsOf ts ++ partsOf us := by
  simp [partsOf, hostsAll_append]

theorem partsOf_node (slot : Slot) (data : NodeData) (ts : List (NodeTree Slot)) :
    partsOf [.node slot data ts] = slot.filterMap template? ++ partsOf ts := by
  cases slot with
  | nil => simp [partsOf, hostsAll, hosts]
  | cons r rs =>
      simp only [partsOf, hostsAll, hosts, List.isEmpty_cons, Bool.false_eq_true, if_false,
        List.append_nil, List.cons_append, List.nil_append, List.map_cons, List.flatten_cons,
        NodeTree.label]
      rw [← List.cons_append, List.filterMap_append]

theorem parts_emit (t : NodeTree Slot) (expression : Option String) :
    (emit t expression).parts = partsOf [t] := by
  rw [CompiledTemplate.parts, emit, partsOf, hostsAll, hostsAll, List.append_nil]
  congr 1

/-- References to attributes refer to no template. -/
theorem Emptied.no_parts {attributes kept : List (String × Value)} {slot : Slot}
    (e : Emptied attributes kept slot) : slot.filterMap template? = [] := by
  rw [List.filterMap_eq_nil_iff]
  intro r mem
  cases r with
  | binding b => rfl
  | template t => cases e.bindings _ mem

/-- A plan whose nodes are made so, whose parts are those to which it refers, and so for its
parts. -/
inductive Complete : Plan → Prop where
  | intro {d : Plan} (made : Made d.tree) (listed : d.compiled.parts = d.parts.map compiled)
      (parts : ∀ part ∈ d.parts, Complete part) : Complete d

/-- The same of trees side by side. -/
structure Sketch.Complete (sketch : Sketch) : Prop where
  made : MadeAll sketch.trees
  listed : partsOf sketch.trees = sketch.parts.map compiled
  parts : ∀ part ∈ sketch.parts, Plan.Complete part

namespace Sketch

theorem complete_nil : Complete ⟨[], []⟩ := ⟨trivial, rfl, by simp⟩

theorem Complete.append {a b : Sketch} (h : a.Complete) (k : b.Complete) :
    Complete ⟨a.trees ++ b.trees, a.parts ++ b.parts⟩ where
  made := madeAll_append h.made k.made
  listed := by rw [partsOf_append, h.listed, k.listed, List.map_append]
  parts part mem := (List.mem_append.1 mem).elim (h.parts part) (k.parts part)

/-- A node that is no host. -/
theorem complete_bare {data : NodeData} (none_there : data.attributes = []) (plain : DataPlain data) :
    Complete ⟨[.node [] data []], []⟩ where
  made := by
    refine ⟨⟨⟨fun filled => (filled rfl).elim, fun _ => rfl, ?_, ?_, plain, fun filled =>
      (filled rfl).elim⟩, trivial⟩, trivial⟩
    · rw [NodeTree.data, none_there]
      rfl
    · rw [NodeTree.data, none_there]
      rfl
  listed := rfl
  parts := nofun

theorem complete_literal {value : String} (plain : Text.Plain value) :
    Complete ⟨literal value, []⟩ := by
  unfold literal
  split
  · exact complete_nil
  · exact complete_bare rfl plain

/-- An element that stays, with its bound attributes. -/
theorem Complete.element {below : Sketch} (h : below.Complete)
    {attributes kept : List (String × Value)} {slot content : Slot}
    (e : Emptied attributes kept slot) (distinct : (attributes.map Prod.fst).Nodup)
    (unmarked : hasMarker Marker.host attributes = false)
    (unblocked : hasMarker Marker.block attributes = false) (name : String)
    (bound : content = [] ∨ below.trees = [] ∧ ∃ b, content = [.binding b] ∧ b.attr = none) :
    Complete ⟨[.node (slot ++ content) (.element name kept) below.trees], below.parts⟩ where
  made := by
    have node (contents : ∀ r ∈ content, r.isContent = true) (single : content.length ≤ 1)
        (empty : content ≠ [] → below.trees = []) :
        NodeMade (.node (slot ++ content) (.element name kept) below.trees) := by
      rw [← e.filter_block unblocked]
      exact e.node distinct unmarked name contents single empty
    refine ⟨⟨?_, h.made⟩, trivial⟩
    rcases bound with rfl | ⟨childless, b, rfl, attr⟩
    · exact node nofun (by simp) fun filled => (filled rfl).elim
    · refine node (fun r mem => ?_) (by simp) fun _ => childless
      rw [List.mem_singleton.1 mem]
      exact Option.isNone_iff_eq_none.2 attr
  listed := by
    have no_part : content.filterMap template? = [] := by
      rcases bound with rfl | ⟨-, b, rfl, -⟩ <;> rfl
    rw [partsOf_node, List.filterMap_append, e.no_parts, no_part, h.listed]
    rfl
  parts := h.parts

/-- A block that gives way to a host. -/
theorem Complete.block {below : Sketch} (h : below.Complete)
    {attributes kept : List (String × Value)} {slot : Slot}
    (e : Emptied attributes kept slot) (distinct : (attributes.map Prod.fst).Nodup)
    (unmarked : hasMarker Marker.host attributes = false) (name identity : String) :
    (Plan.block name kept slot identity below).Complete where
  made := by
    refine ⟨⟨e.node distinct unmarked _ (fun r mem => ?_) (by simp) fun _ => rfl, trivial⟩, trivial⟩
    rw [List.mem_singleton.1 mem]
    rfl
  listed := by
    rw [Plan.block, partsOf_node, List.filterMap_append, e.no_parts]
    rfl
  parts part mem := by
    rw [List.mem_singleton.1 mem]
    have root : NodeMade (.node [] (.element name []) below.trees) := {
      element := fun _ => rfl
      leaf := by simp [NodeTree.data, NodeData.isElement]
      unmarked := rfl
      unblocked := rfl
      plain := by simp [DataPlain, NodeTree.data, NodeData.attributes]
      fits := fun filled => (filled rfl).elim }
    refine .intro ⟨root, h.made⟩ ?_ h.parts
    rw [compiled, parts_emit, Plan.part, Plan.tree, partsOf_node, h.listed]
    rfl

end Sketch

/-! ## Trees -/

theorem complete_ofOccurrences {source : Source} {found : List Occurrence}
    (plain : ∀ o ∈ found, Text.Plain o.preamble) {trees : List (NodeTree Slot)}
    (h : ofOccurrences s source found = .ok trees) : Sketch.Complete ⟨trees, []⟩ := by
  induction found generalizing trees with
  | nil =>
      cases h
      exact Sketch.complete_nil
  | cons o found ih =>
      rw [ofOccurrences] at h
      obtain ⟨own, planned, h⟩ := bind_eq_ok.1 h
      obtain ⟨others, more, h⟩ := bind_eq_ok.1 h
      cases h
      rw [ofOccurrence] at planned
      obtain ⟨b, bound, planned⟩ := bind_eq_ok.1 planned
      cases planned
      have wrapper := Sketch.complete_nil.element emptied_nil List.nodup_nil rfl rfl
        (Text.lower s.config.wrapperTag) (.inr ⟨rfl, b, rfl, binding_attr bound⟩)
      exact ((Sketch.complete_literal (plain o (by simp))).append wrapper).append
        (ih (fun o mem => plain o (List.mem_cons_of_mem _ mem)) more)

theorem complete_ofText {value : String} {trees : List (NodeTree Slot)}
    (h : ofText s value = .ok trees) : Sketch.Complete ⟨trees, []⟩ := by
  unfold ofText at h
  obtain ⟨found, all, h⟩ := bind_eq_ok.1 h
  by_cases none_found : found.isEmpty
  · rw [if_pos none_found] at h
    cases h
    rw [List.isEmpty_iff.1 none_found] at all
    exact Sketch.complete_bare rfl (Occurrence.plain_of_all_nil all)
  · rw [if_neg none_found] at h
    obtain ⟨pieces, planned, h⟩ := bind_eq_ok.1 h
    cases h
    exact (complete_ofOccurrences (fun o => Occurrence.plain_preamble all) planned).append
      (Sketch.complete_literal (Occurrence.plain_trailing value))

/-- A node of a tree in which no element is marked as a host. -/
def Unmarked (data : NodeData) : Prop :=
  AttributesDistinct data ∧ hasMarker Marker.host data.attributes = false

/-- What an element holds is one directive, or what its children become. -/
theorem complete_ofContent {children : List (NodeTree NodeId)} {own : Slot} {below : Sketch}
    (h : ofContent s children (ofTrees s children) = .ok (own, below))
    (inner : ∀ {sketch}, ofTrees s children = .ok sketch → sketch.Complete) :
    below.Complete ∧ (own = [] ∨ below.trees = [] ∧ ∃ b, own = [.binding b] ∧ b.attr = none) := by
  unfold ofContent at h
  obtain ⟨sole, known, h⟩ := bind_eq_ok.1 h
  cases sole with
  | none =>
      obtain ⟨sketch, planned, h⟩ := bind_eq_ok.1 h
      cases h
      exact ⟨inner planned, .inl rfl⟩
  | some found =>
      obtain ⟨b, bound, h⟩ := bind_eq_ok.1 h
      cases h
      exact ⟨Sketch.complete_nil, .inr ⟨rfl, b, rfl, binding_attr bound⟩⟩

mutual

theorem each_unmarked {ι : Type} : (t : NodeTree ι) → t.Fits →
    t.Each (fun data => hasMarker Marker.host data.attributes = false) → t.Each Unmarked
  | .node _ _ children, fits, clean =>
      ⟨⟨fits.1, clean.1⟩, eachAll_unmarked children fits.2.2 clean.2⟩

theorem eachAll_unmarked {ι : Type} : (ts : List (NodeTree ι)) → FitAll ts →
    EachAll (fun data => hasMarker Marker.host data.attributes = false) ts → EachAll Unmarked ts
  | [], _, _ => trivial
  | t :: ts, fits, clean =>
      ⟨each_unmarked t fits.1.2 clean.1, eachAll_unmarked ts fits.2 clean.2⟩

end

mutual

theorem complete_ofTree : (t : NodeTree NodeId) → t.Each Unmarked → ∀ {sketch},
    ofTree s t = .ok sketch → sketch.Complete
  | .node id data children, clean, sketch, h => by
      cases data with
      | text value =>
          rw [ofTree] at h
          obtain ⟨trees, planned, h⟩ := bind_eq_ok.1 h
          cases h
          exact complete_ofText planned
      | element name attributes =>
          obtain ⟨distinct, unmarked⟩ : AttributesDistinct (.element name attributes) ∧
            hasMarker Marker.host attributes = false := clean.1
          simp only [ofTree] at h
          obtain ⟨⟨kept, slot⟩, known, h⟩ := bind_eq_ok.1 h
          have e := emptied_ofAttributes distinct known
          cases marked : blockOf? attributes with
          | some identity =>
              rw [marked] at h
              obtain ⟨below, planned, h⟩ := bind_eq_ok.1 h
              cases h
              exact (complete_ofTrees children clean.2 planned).block e distinct unmarked name identity
          | none =>
              cases sole : soleBlock? children with
              | some found =>
                  rw [marked, sole] at h
                  obtain ⟨below, planned, h⟩ := bind_eq_ok.1 h
                  cases h
                  exact (complete_ofPromoted children clean.2 planned).block e distinct unmarked name
                    found.2
              | none =>
                  rw [marked, sole] at h
                  obtain ⟨⟨own, below⟩, planned, h⟩ := bind_eq_ok.1 h
                  cases h
                  obtain ⟨inside, bound⟩ := complete_ofContent planned (complete_ofTrees children clean.2)
                  exact inside.element e distinct unmarked (hasMarker_eq_false_of_blockOf? marked) name
                    bound
      | comment value | fragment | doctype value =>
          cases h
          exact Sketch.complete_bare rfl nofun

theorem complete_ofTrees : (ts : List (NodeTree NodeId)) → EachAll Unmarked ts → ∀ {sketch},
    ofTrees s ts = .ok sketch → sketch.Complete
  | [], _, sketch, h => by
      cases h
      exact Sketch.complete_nil
  | t :: ts, clean, sketch, h => by
      rw [ofTrees] at h
      obtain ⟨own, planned, h⟩ := bind_eq_ok.1 h
      obtain ⟨others, more, h⟩ := bind_eq_ok.1 h
      cases h
      exact (complete_ofTree t clean.1 planned).append (complete_ofTrees ts clean.2 more)

theorem complete_ofPromoted : (ts : List (NodeTree NodeId)) → EachAll Unmarked ts → ∀ {sketch},
    ofPromoted s ts = .ok sketch → sketch.Complete
  | [], _, sketch, h => by
      cases h
      exact Sketch.complete_nil
  | .node id data children :: more, clean, sketch, h => by
      rw [ofPromoted] at h
      split at h
      · exact complete_ofTrees children clean.1.2 h
      · exact complete_ofPromoted more clean.2 h

end

theorem complete_ofRoot {name : String} {attributes : List (String × Value)}
    {children : List (NodeTree NodeId)} {d : Plan} (unblocked : blockOf? attributes = none)
    (clean : Unmarked (.element name attributes)) (below : EachAll Unmarked children)
    (h : ofRoot s name attributes children = .ok d) : d.Complete := by
  obtain ⟨kept, slot, own, sketch, known, planned, rfl⟩ := ofRoot_eq_ok h
  obtain ⟨inside, bound⟩ := complete_ofContent planned (complete_ofTrees children below)
  have whole := inside.element (emptied_ofAttributes clean.1 known) clean.1 clean.2
    (hasMarker_eq_false_of_blockOf? unblocked) name bound
  refine .intro whole.made.1 ?_ whole.parts
  rw [compiled, parts_emit]
  exact whole.listed

end Plan

/-! ## Templates -/

/-- Where copies of a plan and of its parts stand, the template has been emitted. -/
theorem Plan.Complete.emitted {v : View} {free : NodeId → Prop} {d : Plan} (h : d.Complete)
    (copied : Copied v free d) : Emitted v d d.compiled := by
  induction copied with
  | @intro d c stands shape labels copies ih =>
      obtain ⟨made, listed, parts⟩ := h
      refine .intro (t := c) stands ?_ shape (Plan.marks_of_shape d.tree made c shape)
        (Plan.slots_hosts d.tree) ?_ ?_ ?_ (by rw [listed, List.length_map]) fun pair mem => ?_
      · rw [Plan.compiled, Plan.emit, CompiledTemplate.markup, Skeleton.markup_compact, ← shape,
          NodeTree.shape, print_map]
      · have slots := Plan.hostTrees_mark d.tree made
        rw [← shape, hostTrees_shape, List.forall₂_map_left_iff] at slots
        exact slots.imp fun _ _ => slotMade_shape
      · rw [← blockless_shape, shape, Plan.blockless_mark d.tree made]
      · exact each_shape c (shape ▸ Plan.plain_mark d.tree made)
      · rw [listed, ← List.map_id d.parts, List.map_map, List.zip_map', List.mem_map] at mem
        obtain ⟨p, member, rfl⟩ := mem
        exact ih p member (parts p member)

namespace Compile

/-- The copies that are written for a compiled template and for the templates in it have the
shape on which rendering relies. Marked in them is what has references in the plan of the tree,
and these are the references of the table when the tree has been walked. -/
theorem emitted_compileNode (config : Config) (title : String) {d : Document} {id : NodeId}
    {name : String} {attributes : List (String × Value)} {children : List (NodeTree NodeId)}
    {c : CompiledTemplate} (sound : d.Sound)
    (read : d.tree id = .ok (.node id (.element name attributes) children))
    (unblocked : blockOf? attributes = none)
    (unmarked : Each (fun data => hasMarker Marker.host data.attributes = false)
      (.node id (.element name attributes) children))
    (accepted : ((compileNode config title id).run d).1 = .ok c) :
    ∃ plan w t,
      Plan.ofRoot { config, name := title } name attributes children = .ok plan ∧
      root { config, name := title } d.slots.size id { document := d } = .ok () w ∧
      w.document.tree id = .ok t ∧ t.map w.hosts.slotOf = plan.tree ∧
      Emitted ((compileNode config title id).run d).2.1.view plan c := by
  obtain ⟨plan, w', planned, written, document⟩ :=
    (compileNode_follows (w := { document := d }) config title sound read).of_run accepted
  obtain ⟨n, -, -, stands⟩ := Document.stands_of_treeWithin sound.forest _ id _ read
  have clean := Plan.each_unmarked _ (sound.forest.fits_of_stands _ _ stands) unmarked
  have walked := root_follows { config, name := title } (w := { document := d })
    (levels_le (w := { document := d }) sound stands) ⟨sound, Hosts.aligned_empty, fun there => by cases there⟩ (fun _ => rfl) stands
  rw [planned] at walked
  obtain ⟨_, w, ran, t, laid⟩ := walked
  have left : w.document.tree t.label = .ok t :=
    Document.tree_of_stands laid.stands (laid.sound.document.forest.nodup_labels t _ laid.stands)
  rw [laid.label] at left
  refine ⟨plan, w, t, planned, ran, left, laid.shown, ?_⟩
  rw [document, written.compiled]
  exact (Plan.complete_ofRoot unblocked clean.1 clean.2 planned).emitted written.copied

/-- A list with a title, in which a block shows one item. -/
theorem emitted_compileNode_list :
    let t : NodeTree NodeId :=
      .node ⟨0⟩ (.element "ul" [("title", .string "{{t}}")]) [
        .node ⟨1⟩ (.element "div" [(Marker.block, .string "items")]) [
          .node ⟨2⟩ (.element "li" []) [.node ⟨3⟩ (.text "{{{x}}}") []]]]
    let d := (Document.plant none { name := "page", strict := false } t).2
    ∃ c, ((compileNode {} "page" ⟨0⟩).run d).1 = .ok c ∧
      c.markup = "<ul title=\"\" data-poirot><div data-poirot></div></ul>" ∧
      c.slots.map List.length = [1, 1] ∧
      c.parts.map CompiledTemplate.markup = ["<div><li data-poirot></li></div>"] ∧
      ∃ plan w u, Plan.ofRoot { config := {}, name := "page" } "ul" [("title", .string "{{t}}")]
          t.children = .ok plan ∧
        root { config := {}, name := "page" } d.slots.size ⟨0⟩ { document := d } = .ok () w ∧
        w.document.tree ⟨0⟩ = .ok u ∧ u.map w.hosts.slotOf = plan.tree ∧
        Emitted ((compileNode {} "page" ⟨0⟩).run d).2.1.view plan c := by
  intro t d
  have sound : d.Sound := Document.sound_plant (Document.sound_empty "page" false) (by
    simp [t, Fits, FitAll, NodeTree.data, View.AttributesDistinct, NodeData.attributes,
      NodeData.isContainer])
  have read : d.tree ⟨0⟩ = .ok t := rfl
  let item : Plan.Sketch := ⟨[.node [.binding { kind := .literal, key := "x" }] (.element "li" []) []], []⟩
  let block := Plan.block "div" [(Marker.block, .string "items")] [] "items" item
  have planned : Plan.ofRoot { config := {}, name := "page" } "ul" [("title", .string "{{t}}")]
      t.children = .ok (.plan
        (.node [.binding { kind := .escaped, key := "t", attr := some "title" }]
          (.element "ul" [("title", .string "")]) block.trees) none block.parts) := rfl
  have accepted := compileNode_accepts {} "page" sound read planned
  have unmarked : t.Each fun data => hasMarker Marker.host data.attributes = false := by
    simp [t, Each, EachAll, hasMarker, NodeData.attributes, Marker.host, Marker.block]
  refine ⟨_, accepted, ?_, rfl, ?_, emitted_compileNode {} "page" sound read rfl unmarked accepted⟩
  · decide +kernel
  · decide +kernel

end Compile

end Stencil
