import Stencil.Json.Basic
import Stencil.Marker
import Stencil.RenderKind
import Stencil.Text.Cut

/-! # Compiled templates

A compiled template is static markup together with one slot of references for every
element that carries the host marker. A reference binds a value to the element's content
or to one of its attributes, or repeats a template inside the element.
-/

namespace Stencil

/-- A place for a value, and how the value is written there. -/
structure Binding where
  kind : RenderKind
  key : String
  /-- The attribute to be written; none for the content. -/
  attr : Option String := none
  /-- The name of the fragment, for fragment directives. -/
  block : Option String := none
  deriving DecidableEq, Repr, Inhabited

/-- Static markup, in one piece or cut at the host marker. -/
inductive Skeleton where
  | plain (markup : String)
  | split (parts : List String)
  deriving DecidableEq, Repr, Inhabited

/-- What an element with a host marker refers to. -/
inductive Reference (τ : Type) where
  | binding (b : Binding)
  | template (t : τ)
  deriving Inhabited

structure CompiledTemplate where
  /-- One slot for every host, in document order. -/
  slots : List (List (Reference CompiledTemplate))
  skeleton : Skeleton
  /-- The iteration expression of a repeated template. -/
  expression : Option String
  deriving Inhabited

namespace Skeleton

/-- The markup in one piece. -/
def markup : Skeleton → String
  | plain markup => markup
  | split parts =>
      String.ofList (Text.joinWith Marker.host.toList (parts.map String.toList))

/-- The JSON of static markup: a text, or an array of texts. -/
def toJson : Skeleton → Json
  | plain markup => .string markup
  | split parts => .array (parts.map Json.string)

/-- The pieces of markup between host markers. -/
def pieces (markup : String) : List String :=
  (Text.splitOn Marker.host.toList markup.toList).map String.ofList

/-- Markup in the form whose JSON is shorter; in one piece if neither is. -/
def compact (markup : String) : Skeleton :=
  let whole := plain markup
  let cut := split (pieces markup)
  if Text.holds Marker.host.toList markup.toList &&
      cut.toJson.print.utf8ByteSize < whole.toJson.print.utf8ByteSize then cut
  else whole

def isSplit : Skeleton → Bool
  | split _ => true
  | plain _ => false

@[simp] theorem markup_split_pieces (markup : String) :
    (split (pieces markup)).markup = markup := by
  have inverse : String.toList ∘ String.ofList = id := funext fun _ => String.toList_ofList
  simp [Skeleton.markup, pieces, inverse]

/-- Compaction loses nothing. -/
@[simp] theorem markup_compact (markup : String) : (compact markup).markup = markup := by
  simp only [compact]
  split
  · exact markup_split_pieces markup
  · rfl

end Skeleton

namespace CompiledTemplate

/-- The static markup of a template. -/
def markup (t : CompiledTemplate) : String := t.skeleton.markup

def hostCount (t : CompiledTemplate) : Nat := t.slots.length

/-- The bindings of a template, without those of the templates in it. -/
def bindings (t : CompiledTemplate) : List Binding :=
  t.slots.flatten.filterMap fun
    | .binding b => some b
    | .template _ => none

/-- The templates that are repeated in a template. -/
def parts (t : CompiledTemplate) : List CompiledTemplate :=
  t.slots.flatten.filterMap fun
    | .template p => some p
    | .binding _ => none

mutual

/-- Whether two templates are the same. -/
def same : CompiledTemplate → CompiledTemplate → Bool
  | ⟨slots, skeleton, expression⟩, u =>
      sameSlots slots u.slots && decide (skeleton = u.skeleton) &&
        decide (expression = u.expression)

def sameSlots :
    List (List (Reference CompiledTemplate)) → List (List (Reference CompiledTemplate)) → Bool
  | [], [] => true
  | s :: ss, r :: rs => sameSlot s r && sameSlots ss rs
  | _, _ => false

def sameSlot : List (Reference CompiledTemplate) → List (Reference CompiledTemplate) → Bool
  | [], [] => true
  | s :: ss, r :: rs => sameReference s r && sameSlot ss rs
  | _, _ => false

def sameReference : Reference CompiledTemplate → Reference CompiledTemplate → Bool
  | .binding b, .binding c => decide (b = c)
  | .template t, .template u => same t u
  | _, _ => false

end

instance : BEq CompiledTemplate := ⟨same⟩

end CompiledTemplate

end Stencil
