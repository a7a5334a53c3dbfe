import Stencil.Block
import Stencil.Compile.Monad
import Stencil.Directive

/-! # Compiling a template

The tree of a template is walked once, and changed on the way: what is asked of a node is
asked when the node is reached. A directive in an attribute or in text becomes a binding of
a host; an element that is marked as a block, or holds nothing but one, is replaced by an
empty host, and what was in it is compiled as a template of its own. What is left of the
tree is the static markup.
-/

namespace Stencil

open Markup

namespace Compile

/-- Where directives are looked for: the options and the name of the template. -/
structure Settings where
  config : Config
  name : String
  deriving Repr

namespace Settings

/-- A text of the template as a source of directives. -/
def source (s : Settings) (text : String) : Source := { name := s.name, text }

end Settings

/-! ## Directives -/

/-- Binds what a directive asks for to a node or to one of its attributes. -/
def bindDirective (s : Settings) (node : NodeId) (source : Source) (o : Occurrence)
    (attr : Option String) : Compile Unit := do
  let directive ← lift (o.directive source)
  trace s.config fun _ =>
    "add reference " ++ directive.key ++ " [" ++ directive.kind.name ++ "] on " ++ node.shown
  let binding : Binding :=
    { kind := directive.kind, key := directive.key, attr, block := directive.block }
  refer node (.binding binding)

/-- Binds the first directive in an attribute and empties the attribute. -/
def bindAttribute (s : Settings) (element : NodeId) (name : String) : Compile Unit := do
  unless name = Marker.block do
    match ← ask (·.attribute? element name) with
    | none => pure ()
    | some value =>
        match ← lift (Occurrence.first? (s.source value)) with
        | none => pure ()
        | some o => do
            trace s.config fun _ => "process attribute " ++ name ++ "=\"" ++ value ++ "\""
            bindDirective s element (s.source value) o (some name)
            edit (Document.setAttribute element name "")

def bindAttributes (s : Settings) (element : NodeId) : Compile Unit := do
  (← ask (·.attributeNames element)).forM (bindAttribute s element)

/-- The directive that is all that an element holds. -/
def soleDirective (s : Settings) (element : NodeId) : Compile (Option (Source × Occurrence)) := do
  match ← ask (·.children element) with
  | [child] =>
      match ← ask (·.data child) with
      | .text value =>
          return (← lift (Occurrence.whole? (s.source value))).map fun o => (s.source value, o)
      | _ => return none
  | _ => return none

/-- Puts the literal text before a directive and an element for the directive before the
text in which they stand. -/
def splitOff (s : Settings) (source : Source) (parent node : NodeId) (o : Occurrence) :
    Compile Unit := do
  unless o.preamble.isEmpty do
    edit do
      Document.insertBefore parent (← Document.createText o.preamble) node
  let wrapper ← edit do
    let wrapper ← Document.createElement s.config.wrapperTag
    Document.insertBefore parent wrapper node
    return wrapper
  bindDirective s wrapper source o none

/-- Replaces a text that holds directives by its literal pieces and one element for every
directive. -/
def splitText (s : Settings) (node : NodeId) (value : String) : Compile Unit := do
  let source := s.source value
  let found ← lift (Occurrence.all source)
  unless found.isEmpty do
    trace s.config fun _ => "process text \"" ++ value ++ "\""
    match ← ask (·.parent node) with
    | none => pure ()
    | some parent =>
        for o in found do
          splitOff s source parent node o
        let rest := Occurrence.trailing value
        unless rest.isEmpty do
          edit do
            Document.insertBefore parent (← Document.createText rest) node
        edit (Document.remove parent node)

/-! ## Blocks -/

/-- The marked one of nodes that are blank texts but for one element, where `found` has been the
marked one so far. -/
def soleBlockAmong (found : Option NodeId) : List NodeId → Compile (Option NodeId)
  | [] => return found
  | child :: more => do
      match ← ask (·.data child) with
      | .text value => if isBlankText value then soleBlockAmong found more else return none
      | .element _ _ =>
          if found.isNone && (← ask (·.hasAttribute child Marker.block)) then
            soleBlockAmong (some child) more
          else return none
      | _ => return none

/-- Merges a marked child into the element that holds nothing else. -/
def merge (s : Settings) (element marker : NodeId) (identity : String) : Compile Unit := do
  trace s.config fun _ => "promote block '" ++ identity ++ "'"
  edit do
    Document.setAttribute element Marker.block identity
    Document.clear element
    Document.moveChildren marker element
    Document.release marker

/-- Merges the marked child of an element into it if it is the only one beside blank texts. -/
def promote (s : Settings) (element : NodeId) : Compile Unit := do
  match ← soleBlockAmong none (← ask (·.children element)) with
  | none => pure ()
  | some marker => merge s element marker ((← ask (·.attribute? marker Marker.block)).getD "")

/-- Moves an attribute of an element to another, unless it is the block marker. -/
def moveAttribute (source target : NodeId) (name : String) : Edit Unit := do
  unless name = Marker.block do
    if let some value ← Edit.ask (·.attributeValue? source name) then
      Document.setAttributeValue target name value
    Document.removeAttribute source name

def moveAttributes (source target : NodeId) : Edit Unit := do
  (← Edit.ask (·.attributeNames source)).forM (moveAttribute source target)

/-! ## Static markup -/

/-- Gives a copy of a host the host marker, and adds the references of the host to those of the
template. -/
def collect (slots : List (List (Reference CompiledTemplate))) (node copy : NodeId) :
    Compile (List (List (Reference CompiledTemplate))) := do
  match (← get).hosts.takeSlot? node with
  | none => return slots
  | some (slot, hosts) =>
      modify fun w => { w with hosts }
      edit (Document.setAttribute copy Marker.host "")
      return slots ++ [slot]

/-- Visits a tree and its copy side by side until the stack of pairs is empty. A tree has no more
nodes than `fuel`; where links form a cycle the visit ends with an error instead of going on for
ever. -/
def gather (fuel : Nat) (slots : List (List (Reference CompiledTemplate))) :
    List (NodeId × NodeId) → Compile (List (List (Reference CompiledTemplate)))
  | [] => return slots
  | (node, copy) :: stack =>
      match fuel with
      | 0 => throw (.dom (.unknownNode node))
      | fuel + 1 => do
          let slots ← collect slots node copy
          let originals ← ask (·.children node)
          let copies ← ask (·.children copy)
          gather fuel slots ((originals.zip copies).foldr List.cons stack)

/-- Host markers without their empty value. -/
def abbreviate (markup : String) : String :=
  String.ofList (Text.replaceAll (Marker.host ++ "=\"\"").toList Marker.host.toList markup.toList)

/-- The template whose tree is below `root`: the markup of a copy in which the hosts are
marked, and their references in document order. -/
def emit (root : NodeId) (expression : Option String) : Compile CompiledTemplate := do
  let emitted ← edit (Document.copyTree root)
  let nodes ← ask fun d => .ok d.slots.size
  let slots ← gather nodes [] [(root, emitted)]
  let markup ← ask (·.serialize emitted)
  return { slots, skeleton := .compact (abbreviate markup), expression }

/-! ## The walk -/

/-- Reports an element and binds its attributes. -/
def enter (s : Settings) (element : NodeId) (name : String) : Compile Unit := do
  trace s.config fun _ => "process element <" ++ name ++ ">"
  bindAttributes s element

/-- Compiles a marked element that has been taken out as a template of its own, `visit` being what
is done with its children. -/
def part (s : Settings) (element : NodeId) (visit : NodeId → Compile Unit) :
    Compile CompiledTemplate :=
  withHosts do
    enter s element (← ask (·.tagName element))
    let expression ← ask (·.attribute? element Marker.block)
    edit (Document.removeAttribute element Marker.block)
    (← ask (·.children element)).forM visit
    emit element expression

/-- Replaces a marked element by an empty host of its name and attributes, and compiles
the element as a template that the host repeats. -/
def extract (s : Settings) (element : NodeId) (visit : NodeId → Compile Unit) : Compile Unit := do
  let name ← ask (·.tagName element)
  let identity ← ask (·.attribute? element Marker.block)
  trace s.config fun _ => "add sub-template <" ++ name ++ "> '" ++ identity.getD "" ++ "'"
  let host ← edit (Document.createElement name)
  edit (moveAttributes element host)
  match ← ask (·.parent element) with
  | none => throw (.dom (.markup ("block element <" ++ name ++ "> has no parent")))
  | some parent => edit (Document.replace parent host element)
  match (← get).hosts.rekey? element host with
  | some (_, hosts) => modify fun w => { w with hosts }
  | none => discard (hostFor host)
  refer host (.template (← part s element visit))

/-- Binds an element to the directive that is all that it holds, or visits its children. -/
def content (s : Settings) (element : NodeId) (visit : NodeId → Compile Unit) : Compile Unit := do
  match ← soleDirective s element with
  | some (source, o) => do
      bindDirective s element source o none
      edit (Document.discardChildren element)
  | none => (← ask (·.children element)).forM visit

/-- Compiles what is at a node below the root, as far as `fuel` levels reach. -/
def visit (s : Settings) : Nat → NodeId → Compile Unit
  | 0, id => throw (.dom (.unknownNode id))
  | fuel + 1, id => do
      match ← ask (·.data id) with
      | .text value => splitText s id value
      | .element name _ => do
          enter s id name
          unless ← ask (·.hasAttribute id Marker.block) do
            promote s id
          if ← ask (·.hasAttribute id Marker.block) then
            extract s id (visit s fuel)
          else
            content s id (visit s fuel)
      | _ => pure ()

/-- Compiles the root of a template, which is no block even if it is marked. -/
def root (s : Settings) (fuel : Nat) (id : NodeId) : Compile Unit := do
  match ← ask (·.data id) with
  | .text value => splitText s id value
  | .element name _ => do
      enter s id name
      content s id (visit s fuel)
  | _ => pure ()

end Compile

/-! ## Templates -/

open Compile

/-- Compiles the tree below a node, which is changed on the way. No chain of nodes is longer than
there are slots. -/
def compileNode (config : Config) (name : String) (id : NodeId) : Compile CompiledTemplate := do
  trace config fun _ => "compile " ++ name
  let levels ← ask fun d => .ok d.slots.size
  withHosts do
    Compile.root { config, name } levels id
    emit id none

/-- Whether markup is a full document: an `html` element, with a doctype on the line
before it or without. -/
def isFullDocument (markup : List Char) : Bool :=
  let isHtml (cs : List Char) : Bool := "<html".toList.isPrefixOf (Text.lowercase (cs.take 5))
  isHtml markup ||
    (Text.lowercase (markup.take 10) == "<!doctype ".toList &&
      let behind := markup.drop 10
      let inside := behind.takeWhile fun c => c != '>' && c != '\n'
      !inside.isEmpty &&
        match behind.drop inside.length with
        | '>' :: '\n' :: rest => isHtml rest
        | _ => false)

/-- The markup of a template: a full document as it is, anything else inside a root element. -/
def rootMarkup (config : Config) (markup : String) : String :=
  if isFullDocument markup.toList then markup
  else
    "<" ++ config.rootTag ++ " class=\"" ++ config.rootClass ++ "\">" ++ markup ++ "</" ++
      config.rootTag ++ ">"

/-- Compiles the text of a template. -/
def compileSource (config : Config) (source : Source) : Compile CompiledTemplate := do
  let markup ← Compile.lift (Fragment.blockify source config.alternateBlockOpen)
  let fragment ← edit (Document.parseMarkup (rootMarkup config markup))
  match ← ask (·.firstElement? fragment) with
  | none => throw (.dom (.markup "template has no root element"))
  | some id => compileNode config source.name id

/-- The compiled form of a template, made with default options in a document of its own. -/
def compile (source : Source) : Except TemplateError CompiledTemplate :=
  ((compileSource {} source).run { name := source.name }).1

end Stencil
