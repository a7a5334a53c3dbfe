import Mathlib.Data.List.Forall2
import Stencil.Proofs.Markup.Parse
import Stencil.Proofs.Render.Meaning

/-! # Expansion

What rendering a compiled template amounts to, as a function on trees: the tree of the
markup with every host filled as its slot says, when names have a meaning. A repeated template
fills its host with the children of its own expansions, one for each item.
-/

namespace Stencil

open Markup

/-- Whether an element has an attribute of this name. -/
def hasMarker (name : String) (attributes : List (String × Value)) : Bool :=
  (attributes.lookup name).isSome

/-- The finite number that a value is or writes, in digits, or else the word for no number. -/
def Value.numeral (v : Value) : String :=
  match v.finite? with
  | some x => Number.text x
  | none => "NaN"

theorem Handler.numeralText_eq (value : Value) : numeralText value = value.numeral := by
  rw [numeralText, Value.numeral]
  cases value.finite? <;> rfl

namespace RenderKind

/-- The value that an attribute receives. -/
def attributeValue : RenderKind → Value → Value
  | numeral, value => .string (value.numeral)
  | _, value => value

/-- The content that an empty host receives, if the kind can show the value. -/
def content? : RenderKind → Value → Option (List (NodeTree Unit))
  | escaped, value => some [.node () (.text value.text) []]
  | literal, value => some (parse value.text).1
  | fragment, value => some (parse value.text).1
  | numeral, value => some (parse (value.numeral)).1
  | function, .function _ result => some [.node () (.text result.text) []]
  | function, _ => none
  | custom _, _ => none

theorem content?_function (value : Value) :
    content? function value = value.invoke?.map fun result => [.node () (.text result.text) []] := by
  cases value <;> rfl

def isBuiltIn : RenderKind → Bool
  | custom _ => false
  | _ => true

end RenderKind

/-- What a host receives: values for attributes and, if its content changes, the new one. -/
structure Filling where
  attributes : List (String × Value) := []
  content : Option (List (NodeTree Unit)) := none
  deriving Inhabited

namespace Filling

def append (f g : Filling) : Filling where
  attributes := f.attributes ++ g.attributes
  content := f.content.or g.content

/-- The attributes of a host that is filled. The marker goes unless markers are kept. -/
def dress (keep : Bool) (f : Filling) (attributes : List (String × Value)) :
    List (String × Value) :=
  (attributes.filter fun entry => keep || entry.1 != Marker.host).map fun entry =>
    (entry.1, (f.attributes.lookup entry.1).getD entry.2)

mutual

/-- The tree with its hosts filled in document order, and the fillings that are left. -/
def fill (keep : Bool) : NodeTree Unit → List Filling → NodeTree Unit × List Filling
  | .node _ data children, fs =>
      match data with
      | .element name attributes =>
          if hasMarker Marker.host attributes then
            let f := fs.headD {}
            let (filled, rest) := fillAll keep children fs.tail
            (.node () (.element name (f.dress keep attributes)) (f.content.getD filled), rest)
          else
            let (filled, rest) := fillAll keep children fs
            (.node () (.element name attributes) filled, rest)
      | data => (.node () data children, fs)

def fillAll (keep : Bool) : List (NodeTree Unit) → List Filling → List (NodeTree Unit) × List Filling
  | [], fs => ([], fs)
  | t :: ts, fs =>
      let (filled, rest) := fill keep t fs
      let (others, rest) := fillAll keep ts rest
      (filled :: others, rest)

end

end Filling

/-- What a binding fills with a value. -/
def Binding.written (b : Binding) (value : Value) : Filling :=
  match b.attr with
  | some name => { attributes := [(name, b.kind.attributeValue value)] }
  | none => { content := b.kind.content? value }

/-- What a binding fills: nothing unless there is a value where its key leads. -/
def Binding.filling (b : Binding) (m : Meaning) : Filling :=
  match m.reach? b.key with
  | some value => b.written value
  | none => {}

/-- What the items at the end of a path fill, each with the trees that it is in the region. -/
def Meaning.filling (m : Meaning) (path : String) (body : Value → List (NodeTree Unit)) : Filling :=
  match m.reach? path with
  | some .null => { content := some [] }
  | some (.array items) => { content := some (items.flatMap body) }
  | _ => {}

namespace CompiledTemplate

/-- The tree of some compiled markup. -/
def treeOf? (markup : String) : Option (NodeTree Unit) :=
  (parse markup).1.find? fun t => t.data.isElement

mutual

/-- The tree that a template is when names mean this. -/
def expand (keep : Bool) (m : Meaning) : CompiledTemplate → NodeTree Unit
  | ⟨slots, skeleton, _⟩ =>
      match treeOf? skeleton.markup with
      | some t => (Filling.fill keep t (expandSlots keep m slots)).1
      | none => .node () .fragment []

def expandSlots (keep : Bool) (m : Meaning) :
    List (List (Reference CompiledTemplate)) → List Filling
  | [] => []
  | slot :: slots => expandSlot keep m slot :: expandSlots keep m slots

def expandSlot (keep : Bool) (m : Meaning) : List (Reference CompiledTemplate) → Filling
  | [] => {}
  | r :: rs => (expandReference keep m r).append (expandSlot keep m rs)

/-- The words of a region are the path of its items and, if there is a second one, the name
that an item has inside. -/
def expandReference (keep : Bool) (m : Meaning) : Reference CompiledTemplate → Filling
  | .binding b => b.filling m
  | .template t =>
      match expressionWords (t.expression.getD "") with
      | [path] => m.filling path fun item => (expand keep (m.opening item) t).children
      | [path, name] => m.filling path fun item => (expand keep (m.naming name item) t).children
      | _ => {}

end

end CompiledTemplate

/-! ## Templates as the compiler makes them -/

namespace Reference

/-- Whether a reference changes the content of its host. -/
def isContent : Reference CompiledTemplate → Bool
  | binding b => b.attr.isNone
  | template _ => true

/-- The attribute to which a reference writes. -/
def attr? : Reference CompiledTemplate → Option String
  | binding b => b.attr
  | template _ => none

end Reference

mutual

/-- The elements with a host marker, each with what is below it, in document order. -/
def hostTrees {ι : Type} : NodeTree ι → List (NodeTree ι)
  | .node id data children =>
      match data with
      | .element name attributes =>
          (if hasMarker Marker.host attributes then [.node id (.element name attributes) children]
            else []) ++ hostTreesAmong children
      | _ => []

def hostTreesAmong {ι : Type} : List (NodeTree ι) → List (NodeTree ι)
  | [] => []
  | t :: ts => hostTrees t ++ hostTreesAmong ts

end

mutual

/-- Whether no element of a tree has a block marker. -/
def blockless {ι : Type} : NodeTree ι → Bool
  | .node _ data children =>
      !hasMarker Marker.block data.attributes && blocklessAll children

def blocklessAll {ι : Type} : List (NodeTree ι) → Bool
  | [] => true
  | t :: ts => blockless t && blocklessAll ts

end

/-- A slot fits its host: it has at most one reference for the content, which is empty then,
and writes to attributes that are there, each once, with built-in kinds. -/
structure SlotFits {ι : Type} (host : NodeTree ι) (slot : List (Reference CompiledTemplate)) : Prop where
  single : (slot.filter Reference.isContent).length ≤ 1
  empty : ∀ r ∈ slot, r.isContent = true → host.children = []
  distinct : (slot.filterMap Reference.attr?).Nodup
  present : ∀ name ∈ slot.filterMap Reference.attr?,
    name ≠ Marker.host ∧ name ∈ host.data.attributes.map Prod.fst
  builtIn : ∀ b, .binding b ∈ slot → b.kind.isBuiltIn = true

namespace CompiledTemplate

mutual

/-- Every host of the markup has a slot that fits it, below the root nothing is marked as a
block, and the same is true of the templates to be repeated, whose expressions have one word
or two. -/
def Shaped : CompiledTemplate → Prop
  | ⟨slots, skeleton, _⟩ =>
      (∃ t, treeOf? skeleton.markup = some t ∧ blocklessAll t.children = true ∧
        List.Forall₂ SlotFits (hostTrees t) slots) ∧ ShapedSlots slots

def ShapedSlots : List (List (Reference CompiledTemplate)) → Prop
  | [] => True
  | slot :: slots => ShapedSlot slot ∧ ShapedSlots slots

def ShapedSlot : List (Reference CompiledTemplate) → Prop
  | [] => True
  | r :: rs => ShapedReference r ∧ ShapedSlot rs

def ShapedReference : Reference CompiledTemplate → Prop
  | .binding _ => True
  | .template t => (expressionWords (t.expression.getD "")).length ∈ [1, 2] ∧ Shaped t

end

theorem ShapedReference.iteration {t : CompiledTemplate} (shaped : ShapedReference (.template t)) :
    ∃ i, Iteration.parse? (t.expression.getD "") = some i :=
  Option.isSome_iff_exists.1 (Iteration.isSome_parse?_iff.2 shaped.1)

end CompiledTemplate

end Stencil
