import Stencil.Compile.Template

/-! # Plans

What compiling a tree amounts to, as a function on trees: the tree with its directives
taken out, the references of every host at the host, and the same for every block in it. A
plan knows nothing of documents and node numbers.
-/

namespace Stencil

open Markup NodeTree Compile

/-! ## Decisions -/

namespace Compile

/-- The directive that is all that an element holds. -/
def soleDirective? (s : Settings) :
    List (NodeTree NodeId) → Except SyntaxError (Option (Source × Occurrence))
  | [.node _ (.text value) _] => do
      let source := s.source value
      return (← Occurrence.whole? source).map fun o => (source, o)
  | _ => .ok none

/-- The value of an element's block marker. -/
def blockOf? (attributes : List (String × Value)) : Option String :=
  (attributes.lookup Marker.block).map Value.text

/-- The marked child of an element that has no other children than blank texts. -/
def soleBlock? : List (NodeTree NodeId) → Option (NodeId × String)
  | [] => none
  | .node id data _ :: more =>
      match data with
      | .text value => if isBlankText value then soleBlock? more else none
      | .element _ attributes =>
          match blockOf? attributes with
          | none => none
          | some identity => if more.all isBlank then some (id, identity) else none
      | _ => none
where
  isBlank : NodeTree NodeId → Bool
    | .node _ (.text value) _ => isBlankText value
    | _ => false

end Compile

/-! ## Sketches -/

/-- The references of an element; an element without any is no host. -/
abbrev Slot : Type := List (Reference CompiledTemplate)

/-- A template before its markup is written, with the plans of its blocks in document
order. -/
inductive Plan where
  | plan (tree : NodeTree Slot) (expression : Option String) (parts : List Plan)
  deriving Inhabited

namespace Plan

def tree : Plan → NodeTree Slot
  | plan tree _ _ => tree

def expression : Plan → Option String
  | plan _ expression _ => expression

def parts : Plan → List Plan
  | plan _ _ parts => parts

/-! ## Markup -/

/-- The data of a host with its marker. -/
def markData : NodeData → NodeData
  | .element name attributes =>
      .element name (Value.putField Marker.host (.string "") attributes)
  | data => data

mutual

/-- The tree with a marker on every host. -/
def mark : NodeTree Slot → NodeTree Unit
  | .node slot data children =>
      .node () (if slot.isEmpty then data else markData data) (markAll children)

def markAll : List (NodeTree Slot) → List (NodeTree Unit)
  | [] => []
  | t :: ts => mark t :: markAll ts

end

mutual

/-- The hosts of a tree, each with what is below it, in document order. -/
def hosts : NodeTree Slot → List (NodeTree Slot)
  | .node slot data children =>
      (if slot.isEmpty then [] else [.node slot data children]) ++ hostsAll children

def hostsAll : List (NodeTree Slot) → List (NodeTree Slot)
  | [] => []
  | t :: ts => hosts t ++ hostsAll ts

end

/-- The compiled form of a tree. -/
def emit (t : NodeTree Slot) (expression : Option String) : CompiledTemplate where
  slots := (hosts t).map label
  skeleton := .compact (abbreviate ((mark t).print false))
  expression := expression

/-- The compiled form of a plan. -/
def compiled (d : Plan) : CompiledTemplate := emit d.tree d.expression

/-! ## Directives -/

/-- What a directive binds. -/
def binding (source : Source) (o : Occurrence) (attr : Option String) : Except SyntaxError Binding :=
  (o.directive source).map fun directive =>
    { kind := directive.kind, key := directive.key, attr, block := directive.block }

/-- The value that is left of an attribute, and its reference if it holds a directive. -/
def ofAttribute (s : Settings) (name : String) (value : Value) : Except SyntaxError (Value × Slot) :=
  if name = Marker.block then .ok (value, [])
  else do
    let source := s.source value.text
    match ← Occurrence.first? source with
    | none => return (value, [])
    | some o => return (.string "", [.binding (← binding source o (some name))])

/-- What is left of attributes, and their references. -/
def ofAttributes (s : Settings) :
    List (String × Value) → Except SyntaxError (List (String × Value) × Slot)
  | [] => .ok ([], [])
  | (name, value) :: more => do
      let (value, own) ← ofAttribute s name value
      let (kept, others) ← ofAttributes s more
      return ((name, value) :: kept, own ++ others)

/-- A piece of text, unless it is empty. -/
def literal (value : String) : List (NodeTree Slot) :=
  if value.isEmpty then [] else [.node [] (.text value) []]

/-- The literal text before a directive, and an element for the directive. -/
def ofOccurrence (s : Settings) (source : Source) (o : Occurrence) :
    Except SyntaxError (List (NodeTree Slot)) := do
  let b ← binding source o none
  return literal o.preamble ++ [.node [.binding b] (.element (Text.lower s.config.wrapperTag) []) []]

/-- The trees of directives in order, each with the literal text before it. -/
def ofOccurrences (s : Settings) (source : Source) :
    List Occurrence → Except SyntaxError (List (NodeTree Slot))
  | [] => .ok []
  | o :: more => do
      let own ← ofOccurrence s source o
      return own ++ (← ofOccurrences s source more)

/-- The trees into which a text is split. -/
def ofText (s : Settings) (value : String) : Except SyntaxError (List (NodeTree Slot)) := do
  let source := s.source value
  let found ← Occurrence.all source
  if found.isEmpty then return [.node [] (.text value) []]
  else return (← ofOccurrences s source found) ++ literal (Occurrence.trailing value)

/-! ## Trees -/

/-- Trees side by side, and the plans of the blocks in them. -/
structure Sketch where
  trees : List (NodeTree Slot)
  parts : List Plan
  deriving Inhabited

/-- The template that is made of a block, `below` being what is in the block. -/
def part (name identity : String) (below : Sketch) : Plan :=
  plan (.node [] (.element name []) below.trees) (some identity) below.parts

/-- The host that takes the place of a block, `below` being what is in the block. -/
def block (name : String) (attributes : List (String × Value)) (slot : Slot) (identity : String)
    (below : Sketch) : Sketch :=
  let kept := attributes.filter fun entry => entry.1 != Marker.block
  let slot := slot ++ [.template (part name identity below).compiled]
  { trees := [.node slot (.element (Text.lower name) kept) []], parts := [part name identity below] }

/-- What an element holds, and its reference if that is a single directive. -/
def ofContent (s : Settings) (children : List (NodeTree NodeId))
    (below : Except SyntaxError Sketch) : Except SyntaxError (Slot × Sketch) := do
  match ← soleDirective? s children with
  | some (source, o) => return ([.binding (← binding source o none)], ⟨[], []⟩)
  | none => return ([], ← below)

mutual

/-- What becomes of a tree below the root. -/
def ofTree (s : Settings) : NodeTree NodeId → Except SyntaxError Sketch
  | .node _ data children =>
      match data with
      | .text value => return ⟨← ofText s value, []⟩
      | .element name attributes => do
          let (kept, slot) ← ofAttributes s attributes
          match blockOf? attributes, soleBlock? children with
          | some identity, _ => return block name kept slot identity (← ofTrees s children)
          | none, some (_, identity) => return block name kept slot identity (← ofPromoted s children)
          | none, none => do
              let (own, below) ← ofContent s children (ofTrees s children)
              return ⟨[.node (slot ++ own) (.element name kept) below.trees], below.parts⟩
      | data => .ok ⟨[.node [] data []], []⟩

/-- What becomes of trees side by side. -/
def ofTrees (s : Settings) : List (NodeTree NodeId) → Except SyntaxError Sketch
  | [] => .ok ⟨[], []⟩
  | t :: ts => do
      let own ← ofTree s t
      let others ← ofTrees s ts
      return ⟨own.trees ++ others.trees, own.parts ++ others.parts⟩

/-- What becomes of the children of the one element among blank texts. -/
def ofPromoted (s : Settings) : List (NodeTree NodeId) → Except SyntaxError Sketch
  | [] => .ok ⟨[], []⟩
  | .node _ data children :: more =>
      if data.isElement then ofTrees s children else ofPromoted s more

end

/-- The plan of a template whose root is an element. -/
def ofRoot (s : Settings) (name : String) (attributes : List (String × Value))
    (children : List (NodeTree NodeId)) : Except SyntaxError Plan := do
  let (kept, slot) ← ofAttributes s attributes
  let (own, below) ← ofContent s children (ofTrees s children)
  return plan (.node (slot ++ own) (.element name kept) below.trees) none below.parts

end Plan

end Stencil
