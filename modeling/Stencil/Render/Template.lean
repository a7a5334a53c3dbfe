import Stencil.Marker
import Stencil.Render.BindingTable
import Stencil.Render.Environment
import Stencil.Render.Iteration

/-! # Templates

A template is a compiled form in a document: a tree that is never rendered into, the
pattern of the template, and a live copy whose hosts have been found. Copies of a pattern
share the patterns of the regions in it.
-/

namespace Stencil

open Markup

/-- An element whose content is repeated. -/
structure Region where
  container : NodeId
  iteration : Iteration
  deriving DecidableEq, Repr, Inhabited

/-- A live tree, with its bindings under their keys and its regions in document order. -/
structure Instance where
  root : NodeId
  bindings : BindingTable
  regions : List Region
  deriving Inhabited

namespace Instance

/-- The keys of the bindings, in the order in which their values are written. -/
def keys (i : Instance) : List String := i.bindings.keys

/-- The bindings of a key. -/
def bindingsFor (i : Instance) (key : String) : List BoundBinding := i.bindings.get key

end Instance

/-- What all copies of a template share. -/
structure Pattern where
  compiled : CompiledTemplate
  /-- The tree that is copied, with its markers. -/
  prototype : NodeId
  /-- The patterns of the regions, in document order. -/
  parts : List Pattern
  deriving Inhabited

/-- A change of a document by which a template comes to be. -/
abbrev Build : Type → Type := EStateM TemplateError Document

/-- An edit as a part of a larger change. -/
def Build.edit {α : Type} (e : Edit α) : Build α := fun d =>
  match e d with
  | .ok a d => .ok a d
  | .error error d => .error (.dom error) d

/-- Asks the document a question. -/
def Build.ask {α : Type} (question : Document → Except DomError α) : Build α :=
  Build.edit (Edit.ask question)

/-! ## Binding -/

/-- What the references of the hosts that have been bound amount to. -/
structure Fittings where
  bindings : BindingTable := .empty
  regions : List Region := []
  /-- The patterns of the regions. -/
  parts : List Pattern := []
  deriving Inhabited

/-- The copy whose hosts have been bound. -/
def Fittings.toInstance (f : Fittings) (root : NodeId) : Instance where
  root := root
  bindings := f.bindings
  regions := f.regions

/-- Where a binding of a node writes. -/
def Binding.target (b : Binding) (node : NodeId) : Target :=
  match b.attr with
  | some name => .attr node name
  | none => .content node

/-- What binds a host: it adds the references of one slot, at the node, to what there is. -/
abbrev Binder : Type := NodeId → Fittings → Build Fittings

/-- The search for hosts in a tree. -/
structure Search where
  /-- The nodes that are still to be visited, the next one first. -/
  stack : List NodeId
  /-- What binds the hosts that are still to come. -/
  slots : List Binder
  /-- The number of hosts that have been found. -/
  markers : Nat := 0
  found : Fittings := {}

namespace Environment

/-- A binding of a node, with the handler for its kind. -/
def bind (env : Environment) (node : NodeId) (b : Binding) : Build BoundBinding :=
  match env.handlers.get? b.kind.tag with
  | some handler => pure { binding := b, target := b.target node, handler }
  | none => throw (.unknownKind b.kind.tag)

/-- A region of a node, repeated as an expression says. -/
def region (node : NodeId) (expression : String) : Build Region :=
  match Iteration.parse? expression with
  | some iteration => pure { container := node, iteration }
  | none => throw (.iterationExpression expression)

/-- Takes the marker from a host that has been bound, unless markers are kept. -/
def dropMarker (env : Environment) (node : NodeId) : Build Unit :=
  if env.keepMarkers then pure () else Build.edit (Document.removeAttribute node Marker.host)

/-- Binds a host with the next one of `size` slots. -/
def visitHost (env : Environment) (size : Nat) (node : NodeId) (s : Search) : Build Search :=
  match s.slots with
  | [] => throw (.missingSlot (s.markers + 1) size)
  | bindHost :: slots => do
      let found ← bindHost node s.found
      env.dropMarker node
      return { s with slots, markers := s.markers + 1, found }

/-- Whether a block marker says that what is below an element belongs to another template. -/
def isForeign (root node : NodeId) : Build Bool :=
  if node = root then pure false else Build.ask (·.hasAttribute node Marker.block)

/-- Puts the children of an element on the stack from the last to the first, unless they belong
to another template. -/
def descend (root node : NodeId) (s : Search) : Build Search := do
  if ← isForeign root node then return s
  let children ← Build.ask (·.children node)
  return { s with stack := children.foldr List.cons s.stack }

/-- Visits a node that has been taken from the stack. -/
def visit (env : Environment) (root : NodeId) (size : Nat) (node : NodeId) (s : Search) :
    Build Search := do
  if !(← Build.ask (·.data node)).isElement then return s
  if ← Build.ask (·.hasAttribute node Marker.host) then
    descend root node (← env.visitHost size node s)
  else
    descend root node s

/-- Visits nodes until the stack is empty. A tree has no more nodes than `fuel`; where links
form a cycle the search ends with an error instead of going on for ever. -/
def search (env : Environment) (root : NodeId) (size : Nat) (fuel : Nat) (s : Search) :
    Build Fittings :=
  match s.stack with
  | [] =>
      if s.slots.isEmpty then pure s.found else throw (.unusedSlots s.slots.length s.markers)
  | node :: stack =>
      match fuel with
      | 0 => throw (.dom (.unknownNode node))
      | fuel + 1 => do
          let s ← env.visit root size node { s with stack }
          env.search root size fuel s

/-- Gives the hosts of a tree to what binds them, in document order. -/
def bindHosts (env : Environment) (slots : List Binder) (root : NodeId) : Build Fittings := do
  let nodes ← Build.ask fun d => .ok d.slots.size
  env.search root slots.length nodes { stack := [root], slots }

/-- The tree of some markup, which must have an element at its top. -/
def plantPrototype (markup : String) : Build NodeId := do
  let fragment ← Build.edit (Document.parseMarkup markup)
  match ← Build.ask (·.firstElement? fragment) with
  | some id => return id
  | none => throw (.dom (.markup "compiled markup has no root element"))

mutual

/-- The pattern of a compiled template, and its first copy. -/
def materialize (env : Environment) : CompiledTemplate → Build (Pattern × Instance)
  | ⟨slots, skeleton, expression⟩ => do
      let prototype ← plantPrototype skeleton.markup
      let root ← Build.edit (Document.copyTree prototype)
      let f ← env.bindHosts (binders env [] slots) root
      return ({ compiled := ⟨slots, skeleton, expression⟩, prototype, parts := f.parts },
        f.toInstance root)

/-- What binds the hosts of slots in order, where patterns may be inherited. -/
def binders (env : Environment) (inherited : List Pattern) :
    List (List (Reference CompiledTemplate)) → List Binder
  | [] => []
  | slot :: slots => bindSlot env inherited slot :: binders env inherited slots

/-- Adds the references of a slot. -/
def bindSlot (env : Environment) (inherited : List Pattern) :
    List (Reference CompiledTemplate) → Binder
  | [], _, f => pure f
  | r :: rs, node, f => do
      let f ← bindReference env inherited r node f
      bindSlot env inherited rs node f

/-- Adds a reference. A template to be repeated has the inherited pattern at its place among
all that are repeated, or else a new one. -/
def bindReference (env : Environment) (inherited : List Pattern) :
    Reference CompiledTemplate → Binder
  | .binding b, node, f => do
      return { f with bindings := f.bindings.push (← env.bind node b) }
  | .template t, node, f => do
      let part ← match inherited[f.parts.length]? with
        | some part => pure part
        | none => Prod.fst <$> materialize env t
      let placed ← region node (t.expression.getD "")
      return { f with regions := f.regions ++ [placed], parts := f.parts ++ [part] }

end

/-- Finds the hosts of a live tree and binds them. -/
def wire (env : Environment) (inherited : List Pattern) (compiled : CompiledTemplate)
    (root : NodeId) : Build Fittings :=
  env.bindHosts (env.binders inherited compiled.slots) root

/-- A new copy of a pattern. -/
def instantiate (env : Environment) (p : Pattern) : Build Instance := do
  let root ← Build.edit (Document.copyTree p.prototype)
  return (← env.wire p.parts p.compiled root).toInstance root

/-- A new copy of a pattern whose root is copied alone and then given copies of the children. -/
def instantiateByParts (env : Environment) (p : Pattern) : Build Instance := do
  let root ← Build.edit (Document.copyByParts p.prototype)
  return (← env.wire p.parts p.compiled root).toInstance root

end Environment

/-! ## Templates -/

structure Template where
  environment : Environment
  pattern : Pattern
  live : Instance
  deriving Inhabited

namespace Template

/-- Builds the markup of a compiled template. -/
def ofCompiled (env : Environment) (compiled : CompiledTemplate) : Build Template := do
  let (pattern, live) ← env.materialize compiled
  return { environment := env, pattern, live }

/-- Takes a tree that is there for the live tree of a compiled template. -/
def ofNode (env : Environment) (compiled : CompiledTemplate) (root : NodeId) : Build Template := do
  let prototype ← Build.edit (Document.copyTree root)
  let f ← env.wire [] compiled root
  return {
    environment := env
    pattern := { compiled, prototype, parts := f.parts }
    live := f.toInstance root }

/-- A template of the same pattern with a live tree of its own. -/
def clone (t : Template) : Build Template := do
  return { t with live := ← t.environment.instantiate t.pattern }

/-- A template of the same pattern whose root is a bare copy that holds copies of the children. -/
def cloneSub (t : Template) : Build Template := do
  return { t with live := ← t.environment.instantiateByParts t.pattern }

end Template

end Stencil
