import Stencil.Compiled.Artifact

/-! # Configuration

The options of a compilation, and their JSON: an object in which every option may be
missing, or the array of the options in order, cut short anywhere.
-/

namespace Stencil

structure Config where
  /-- Report every step of the compilation. -/
  verbose : Bool := false
  /-- The element around a template that is not a full document. -/
  rootTag : String := "div"
  /-- The class of that element. -/
  rootClass : String := "poirot-rendered"
  /-- The element around a directive inside other text. -/
  wrapperTag : String := "span"
  /-- Let a caret open a block as a hash does. -/
  alternateBlockOpen : Bool := false
  deriving DecidableEq, Repr, Inhabited

namespace Config

/-- The names of the options, in order. -/
def fieldNames : List String :=
  ["verbose", "rootTag", "rootClass", "wrapperTag", "alternateBlockOpen"]

/-- A truth value. -/
def flagOf? : Json → Option Bool
  | .bool b => some b
  | _ => none

/-- Sets the option of a name. -/
def set? (c : Config) (name : String) (j : Json) : Option Config :=
  if name = "verbose" then (flagOf? j).map fun b => { c with verbose := b }
  else if name = "rootTag" then (Binding.textOf? j).map fun s => { c with rootTag := s }
  else if name = "rootClass" then (Binding.textOf? j).map fun s => { c with rootClass := s }
  else if name = "wrapperTag" then (Binding.textOf? j).map fun s => { c with wrapperTag := s }
  else if name = "alternateBlockOpen" then
    (flagOf? j).map fun b => { c with alternateBlockOpen := b }
  else some c

/-- The configuration with these options set. -/
def setAll? (fields : List (String × Json)) : Option Config :=
  fields.foldlM (fun c (name, j) => c.set? name j) {}

/-- The configuration that a document describes. -/
def ofJson? : Json → Option Config
  | .object fields =>
      let known := (fields.map (·.1)).filter fieldNames.contains
      if known.eraseDups.length == known.length then setAll? fields else none
  | .array items =>
      if items.length ≤ fieldNames.length then setAll? (fieldNames.zip items) else none
  | _ => none

/-- The configuration that a text holds. -/
def read? (text : String) : Option Config := (Json.record? fieldNames text).bind ofJson?

end Config

end Stencil
