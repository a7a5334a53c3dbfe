import Stencil.Proofs.Markup.Relabelling
import Stencil.Proofs.Render.BindingTable
import Stencil.Proofs.Render.Expansion
import Stencil.Proofs.Render.Settling

/-! # Scripts

What a rendering does to a copy does not depend on what the copy holds. It is a list of strokes
that is known from the pattern and the scope: values are written to attributes, contents change,
failures are reported. A copy at other nodes is told by the nodes that take the places of the
first ones.
-/

namespace Stencil

open Markup NodeTree

/-! ## Strokes -/

/-- A change of the content of a node. -/
inductive Change where
  /-- A text is shown. -/
  | text (words : String)
  /-- The content gives way to trees. -/
  | set (trees : List (NodeTree Unit))
  /-- Trees come behind the content. -/
  | add (trees : List (NodeTree Unit))

/-- The content after a change. -/
def Change.on : Change → List (NodeTree Unit) → List (NodeTree Unit)
  | text words, content => Handler.textShown words content
  | set trees, _ => trees
  | add trees, content => content ++ trees

/-- One of the things that a rendering does. -/
inductive Stroke where
  /-- An attribute of a node receives a value. -/
  | write (host : NodeId) (name : String) (value : Value)
  /-- The content of a node changes. -/
  | change (host : NodeId) (c : Change)
  /-- A failure is reported. -/
  | report (entry : LogEntry)

def Stroke.entry? : Stroke → Option LogEntry
  | report entry => some entry
  | _ => none

/-- The lines that report an event. -/
def Event.lines (e : Event) : List LogEntry := [e].filterMap Event.entry?

/-- What the strokes of a script report, in order. -/
def reports (script : List Stroke) : List LogEntry := script.filterMap Stroke.entry?

@[simp] theorem reports_nil : reports [] = [] := rfl

@[simp] theorem reports_append (script more : List Stroke) :
    reports (script ++ more) = reports script ++ reports more :=
  List.filterMap_append

@[simp] theorem reports_report (entries : List LogEntry) :
    reports (entries.map .report) = entries := by
  rw [reports, List.filterMap_map]
  exact List.filterMap_some

/-! ## Drawing -/

/-- A tree in which only those nodes have numbers that are written into. -/
abbrev Sketch : Type := NodeTree (Option NodeId)

/-- Trees without numbers. -/
def unnumbered (trees : List (NodeTree Unit)) : List Sketch := trees.map (NodeTree.map fun _ => none)

theorem map_shape_unnumbered (trees : List (NodeTree Unit)) :
    (unnumbered trees).map shape = trees := by
  rw [unnumbered, List.map_map, Function.comp_def]
  simp only [shape_map]
  exact map_shape_eq_self trees

theorem labels_unnumbered {trees : List (NodeTree Unit)} {x : Option NodeId}
    (mem : x ∈ labelsAll (unnumbered trees)) : x = none := by
  rw [unnumbered, ← mapAll_eq_map, labelsAll_mapAll] at mem
  obtain ⟨-, -, rfl⟩ := List.mem_map.1 mem
  rfl

/-- The data of a node whose attribute has received a value. -/
def Markup.NodeData.put (name : String) (value : Value) : NodeData → NodeData
  | element tag own => element tag (Value.putField name value own)
  | data => data

/-- The tree whose top has changed its content. -/
def Sketch.refill (c : Change) : Sketch → Sketch
  | .node label data children => .node label data (unnumbered (c.on (children.map shape)))

/-- What a stroke makes of a tree. -/
def Stroke.draw : Stroke → Sketch → Sketch
  | write host name value, s => s.revise (some host) (redata (.put name value))
  | change host c, s => s.revise (some host) (Sketch.refill c)
  | report _, s => s

/-- The tree after the strokes of a script. -/
def Sketch.draw (s : Sketch) (script : List Stroke) : Sketch := script.foldl (fun s k => k.draw s) s

@[simp] theorem Sketch.draw_nil (s : Sketch) : s.draw [] = s := rfl

@[simp] theorem Sketch.draw_append (s : Sketch) (script more : List Stroke) :
    s.draw (script ++ more) = (s.draw script).draw more :=
  List.foldl_append

@[simp] theorem Sketch.draw_report (s : Sketch) (entries : List LogEntry) :
    s.draw (entries.map .report) = s := by
  induction entries with
  | nil => rfl
  | cons entry entries ih => exact ih

/-! ## Bindings -/

namespace RenderKind

/-- The change that showing a value is, if the kind can show it. -/
def change? : RenderKind → Value → Option Change
  | escaped, value => some (.text value.text)
  | literal, value => some (.set (parse value.text).1)
  | fragment, value => some (.set (parse value.text).1)
  | numeral, value => some (.set (parse (value.numeral)).1)
  | function, value => value.invoke?.map fun result => .text result.text
  | custom _, _ => none

end RenderKind

namespace BoundBinding

/-- The kind whose handler is called. -/
def kind (b : BoundBinding) : RenderKind := .ofTag b.binding.kind.tag

/-- What is done with a value. -/
def strokes (b : BoundBinding) (value : Value) : List Stroke :=
  match b.target with
  | .attr host name => [.write host name (b.kind.attributeValue value)]
  | .content host =>
      match b.kind.change? value with
      | some c => [.change host c]
      | none =>
          (Event.failed b.binding.key value (.notInvokable value.typeName)).lines.map .report

variable {b : BoundBinding} {value : Value} {x : NodeId}

theorem strokes_of_attr {name : String} (target : b.target = .attr x name) :
    b.strokes value = [.write x name (b.kind.attributeValue value)] := by
  simp only [strokes, target]

theorem strokes_of_some {c : Change} (target : b.target = .content x)
    (shown : b.kind.change? value = some c) : b.strokes value = [.change x c] := by
  simp only [strokes, target, shown]

theorem strokes_of_none (target : b.target = .content x) (hidden : b.kind.change? value = none) :
    b.strokes value =
      (Event.failed b.binding.key value (.notInvokable value.typeName)).lines.map .report := by
  simp only [strokes, target, hidden]

end BoundBinding

/-- What the bindings of a copy do in a scope. -/
def Instance.strokes (i : Instance) (scope : Scope) : List Stroke :=
  i.keys.flatMap fun key =>
    match scope.resolve? key with
    | none => []
    | some value => (i.bindingsFor key).flatMap fun b => b.strokes value

/-- The keys are gone through in their order, each with its bindings. -/
theorem Means.writeBindings_eq {m : Type → Type} [Monad m] (w : Means m) (i : Instance)
    (scope : Scope) :
    w.writeBindings i scope =
      i.keys.forM fun key => w.writeKey scope key (i.bindingsFor key) := by
  have under : ∀ keys : List String,
      (keys.map fun key => (key, i.bindings.get key)).forM
          (fun entry => w.writeKey scope entry.1 entry.2) =
        keys.forM fun key => w.writeKey scope key (i.bindingsFor key) := fun keys => by
    induction keys with
    | nil => rfl
    | cons key keys ih => exact bind_congr fun _ => ih
  rw [writeBindings, i.bindings.entries_eq]
  exact under i.keys

/-- The nodes into which a copy writes. -/
def Instance.places (i : Instance) : List NodeId :=
  i.bindings.list.map (·.target.node) ++ i.regions.map (·.container)

theorem Instance.mem_places {i : Instance} {x : NodeId} : x ∈ i.places ↔ i.Hosts x := by
  rw [places, List.mem_append, List.mem_map, List.mem_map]
  rfl

theorem Instance.target_mem_places {i : Instance} {b : BoundBinding} (mem : b ∈ i.bindings) :
    b.target.node ∈ i.places := List.mem_append_left _ (List.mem_map_of_mem mem)

/-! ## Copies at other nodes -/

def Target.map (f : NodeId → NodeId) : Target → Target
  | content node => content (f node)
  | attr node name => attr (f node) name

def BoundBinding.map (f : NodeId → NodeId) (b : BoundBinding) : BoundBinding :=
  { b with target := b.target.map f }

theorem BoundBinding.key_map (f : NodeId → NodeId) (b : BoundBinding) :
    (b.map f).binding.key = b.binding.key := rfl

def Region.map (f : NodeId → NodeId) (r : Region) : Region := { r with container := f r.container }

namespace Instance

/-- The same copy at other nodes. -/
def map (f : NodeId → NodeId) (i : Instance) : Instance where
  root := f i.root
  bindings := i.bindings.map (·.map f) (BoundBinding.key_map f)
  regions := i.regions.map (·.map f)

variable {i : Instance} {f : NodeId → NodeId} {k x : NodeId}

@[simp] theorem keys_map (i : Instance) (f : NodeId → NodeId) : (i.map f).keys = i.keys := by
  rw [keys, map, BindingTable.keys_map]
  rfl

@[simp] theorem bindingsFor_map (i : Instance) (f : NodeId → NodeId) (key : String) :
    (i.map f).bindingsFor key = (i.bindingsFor key).map (·.map f) := by
  rw [bindingsFor, map, BindingTable.get_map]
  rfl

@[simp] theorem node_target_map (f : NodeId → NodeId) (T : Target) : (T.map f).node = f T.node := by
  cases T <;> rfl

@[simp] theorem places_map (i : Instance) (f : NodeId → NodeId) :
    (i.map f).places = i.places.map f := by
  simp [places, map, BoundBinding.map, Region.map, Function.comp_def]

/-- A copy at other nodes is taken to the copy at third ones. -/
theorem map_map_eq {g h : NodeId → NodeId} (root : g (f i.root) = h i.root)
    (same : ∀ k ∈ i.places, g (f k) = h k) : (i.map f).map g = i.map h := by
  have target : ∀ b ∈ i.bindings, (b.map f).map g = b.map h := fun b mem => by
    have moved := same b.target.node (target_mem_places mem)
    obtain ⟨binding, target, handler⟩ := b
    cases target with
    | content k => exact congrArg (fun x => BoundBinding.mk binding (.content x) handler) moved
    | attr k name => exact congrArg (fun x => BoundBinding.mk binding (.attr x name) handler) moved
  have bindings : ((i.map f).map g).bindings = (i.map h).bindings := by
    refine BindingTable.ext_get ?_ fun key => ?_
    · simp only [map, BindingTable.keys_map]
    · simp only [map, BindingTable.get_map, List.map_map]
      exact List.map_congr_left fun b mem => target b (BindingTable.mem_get.1 mem).1
  have regions : ((i.map f).map g).regions = (i.map h).regions := by
    simp only [map, List.map_map]
    refine List.map_congr_left fun r mem => ?_
    exact congrArg (fun x => Region.mk x r.iteration)
      (same r.container (List.mem_append_right _ (List.mem_map_of_mem mem)))
  exact (Instance.mk.injEq ..).mpr ⟨root, bindings, regions⟩

theorem hosts_map : (i.map f).Hosts x ↔ ∃ k ∈ i.places, f k = x := by
  rw [← mem_places, places_map, List.mem_map]

/-- The number of a node into which the copy at other nodes writes. -/
def numbering (i : Instance) (f : NodeId → NodeId) (x : NodeId) : Option NodeId :=
  i.places.find? fun k => f k == x

/-- Different places are at different nodes. -/
def Apart (i : Instance) (f : NodeId → NodeId) : Prop :=
  ∀ j ∈ i.places, ∀ k ∈ i.places, f j = f k → j = k

theorem numbering_eq_some (apart : i.Apart f) :
    i.numbering f x = some k ↔ k ∈ i.places ∧ f k = x := by
  constructor
  · intro found
    exact ⟨List.mem_of_find?_eq_some found, by simpa using List.find?_some found⟩
  · rintro ⟨mem, rfl⟩
    cases found : i.numbering f (f k) with
    | none =>
        have none_left := List.find?_eq_none.1 found k mem
        simp at none_left
    | some j =>
        have same : f j = f k := by simpa using List.find?_some found
        rw [apart j (List.mem_of_find?_eq_some found) k mem same]

/-- A node without a number is not written into. -/
theorem numbering_eq_none (out : ¬(i.map f).Hosts x) : i.numbering f x = none := by
  cases found : i.numbering f x with
  | none => rfl
  | some k =>
      exact (out (hosts_map.2 ⟨k, List.mem_of_find?_eq_some found,
        by simpa using List.find?_some found⟩)).elim

end Instance

end Stencil
