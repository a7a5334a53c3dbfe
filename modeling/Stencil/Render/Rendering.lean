import Stencil.Render.Scope
import Stencil.Render.Template

/-! # Rendering

A context is written into a live tree: first the bindings, key by key, then the regions.
What has no value stays as it is. A handler that fails is reported and passed over, unless
it was the document that refused.
-/

namespace Stencil

/-- What happens while a template is rendered. -/
inductive Event where
  /-- The handler for a tag is called. -/
  | called (tag : String) (target : Target) (value : Value)
  /-- The handler called last has failed on the value of a key. -/
  | failed (key : String) (value : Value) (e : HandlerError)
  /-- The source of a region has a value that is no array. -/
  | notIterable (source : String) (value : Value)
  deriving Inhabited

/-- The line that reports an event, if it is worth one. -/
def Event.entry? : Event → Option LogEntry
  | called _ _ _ => none
  | failed key value e => some {
      level := .error
      text := "Failed to render value " ++ value.shown ++ " for '" ++ key ++ "': " ++ e.message }
  | notIterable source value => some {
      level := .error
      text := "Failed to render iteration '" ++ source ++ "': expected an array, found " ++
        value.shown }

/-- What a rendering works on. -/
structure Canvas where
  document : Document
  /-- What has happened, the latest first. -/
  history : List Event := []
  deriving Inhabited

/-- A computation on a canvas that may fail. -/
abbrev Rendering : Type → Type := EStateM TemplateError Canvas

namespace Rendering

/-- A change of the document as a part of a rendering. -/
def build {α : Type} (b : Build α) : Rendering α := fun c =>
  match b c.document with
  | .ok a document => .ok a { c with document }
  | .error e document => .error e { c with document }

def edit {α : Type} (e : Edit α) : Rendering α := build (Build.edit e)

/-- Notes what happens. -/
def note (e : Event) : Rendering Unit := modify fun c => { c with history := e :: c.history }

/-- The outcome of a rendering in a document: the result, the document afterwards, and what
has happened, in order. -/
def run {α : Type} (body : Rendering α) (d : Document) :
    Except TemplateError α × Document × List Event :=
  match body { document := d } with
  | .ok a c => (.ok a, c.document, c.history.reverse)
  | .error e c => (.error e, c.document, c.history.reverse)

end Rendering

namespace BoundBinding

/-- Calls the handler of a binding. -/
def call (b : BoundBinding) (value : Value) : Rendering (Except HandlerError Unit) := fun c =>
  match b.handler b.target value c.document with
  | .ok _ document => .ok (.ok ()) { c with document }
  | .error e document => .ok (.error e) { c with document }

/-- Writes a value. -/
def apply (b : BoundBinding) (value : Value) : Rendering Unit := do
  Rendering.note (.called b.binding.kind.tag b.target value)
  match ← b.call value with
  | .ok () => pure ()
  | .error (.dom e) => throw (.dom e)
  | .error e => Rendering.note (.failed b.binding.key value e)

end BoundBinding

/-- The scope inside a region for one of its items. -/
def Iteration.scopeFor (i : Iteration) (item : Value) (scope : Scope) : Scope :=
  match i.itemName with
  | some name => .named name item :: scope
  | none => .fields item :: scope

/-- What is worth noting where a region is come to, and its source has a value or none. -/
def Region.events (region : Region) : Option Value → List Event
  | none | some .null | some (.array _) => []
  | some value => [.notIterable region.iteration.source value]

/-! ## The way through a pattern -/

/-- What is done on the way through a pattern. -/
structure Means (m : Type → Type) where
  /-- Changes the document. -/
  build {α : Type} : Build α → m α
  /-- Writes a value where a binding is. -/
  apply : BoundBinding → Value → m Unit
  /-- Comes to a region, and its source has a value or none. -/
  come : Region → Option Value → m Unit

namespace Means

variable {m : Type → Type} [Monad m]

def edit {α : Type} (w : Means m) (e : Edit α) : m α := w.build (Build.edit e)

/-- Writes the value of a key, if it has one. -/
def writeKey (w : Means m) (scope : Scope) (key : String) (bound : List BoundBinding) : m Unit :=
  match scope.resolve? key with
  | none => pure ()
  | some value => bound.forM fun b => w.apply b value

/-- Writes the values of the keys that have one. -/
def writeBindings (w : Means m) (i : Instance) (scope : Scope) : m Unit :=
  i.bindings.entries.forM fun (key, bound) => w.writeKey scope key bound

/-- Adds what is written into a new copy of a pattern to the content of a node. -/
def addCopy (w : Means m) (env : Environment) (container : NodeId) (part : Pattern)
    (fill : Instance → m Unit) : m Unit := do
  let copy ← w.build (env.instantiate part)
  fill copy
  w.edit (Document.moveChildren copy.root container)
  w.edit (Document.release copy.root)

/-- Writes the items of a region, if its source is a list. -/
def writeRegion (w : Means m) (region : Region) (value : Option Value) (add : Value → m Unit) :
    m Unit := do
  w.come region value
  match value with
  | some .null => w.edit (Document.discardChildren region.container)
  | some (.array items) => do
      w.edit (Document.discardChildren region.container)
      items.forM add
  | _ => pure ()

mutual

/-- Writes into a copy of a pattern. -/
def write (w : Means m) (env : Environment) (scope : Scope) (live : Instance) : Pattern → m Unit
  | ⟨_, _, parts⟩ => do
      w.writeBindings live scope
      writeRegions w env scope live.regions parts

/-- Writes into regions, each with its pattern. -/
def writeRegions (w : Means m) (env : Environment) (scope : Scope) (regions : List Region) :
    List Pattern → m Unit
  | [] => pure ()
  | part :: parts =>
      match regions with
      | [] => pure ()
      | region :: regions => do
          w.writeRegion region (scope.resolve? region.iteration.source) fun item =>
            w.addCopy env region.container part fun copy =>
              write w env (region.iteration.scopeFor item scope) copy part
          writeRegions w env scope regions parts

end

end Means

/-! ## Rendering -/

/-- The means of a rendering. -/
def Rendering.means : Means Rendering where
  build := Rendering.build
  apply := BoundBinding.apply
  come region value := (region.events value).forM Rendering.note

/-- Renders into a copy of a pattern. -/
def Pattern.render (env : Environment) (scope : Scope) (live : Instance) (p : Pattern) :
    Rendering Unit := Rendering.means.write env scope live p

namespace Template

/-- Renders a context into the live tree, and gives its root. -/
def render (t : Template) (context : Value) : Rendering NodeId := do
  Pattern.render t.environment (.ofContext context) t.live t.pattern
  return t.live.root

end Template

end Stencil
