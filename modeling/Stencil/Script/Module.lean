import Stencil.Compiled.Artifact
import Stencil.Script.Lines

/-! # Templates as a script module

A compiled template as the expression that makes it again, and a bundle as a module
that exports every template under its name. Static markup is written as a literal in
the quotes that need fewer escapes, cut at the host marker where that is shorter.
-/

namespace Stencil.Script

/-- The module from which the runtime is required unless another is named. -/
def defaultRuntime : String := "poirot/lib/template"

/-- The inside of a literal between double quotes, as it stands between single ones. -/
def requote : List Char → List Char
  | [] => []
  | '\\' :: '"' :: cs => '"' :: requote cs
  | '\\' :: c :: cs => '\\' :: c :: requote cs
  | '\'' :: cs => '\\' :: '\'' :: requote cs
  | c :: cs => c :: requote cs

/-- The literal for a text: between double quotes, or between single ones if the text
holds more double than single quotes. -/
def literal (text : String) : List Char :=
  let body := Json.escaped text.toList
  if body.count '\'' < body.count '"' then '\'' :: requote body ++ ['\'']
  else '"' :: body ++ ['"']

/-- The literal for markup: an array of the pieces between host markers if that is
shorter, else one literal. -/
def markupLiteral (markup : String) : String :=
  let one := literal markup
  let quotation := one.take 1
  let pieces := Text.splitOn Marker.host.toList one
  let many := '[' :: Text.joinWith (quotation ++ [','] ++ quotation) pieces ++ [']']
  String.ofList (if Text.byteLength many < Text.byteLength one then many else one)

/-- An optional property of an object literal. -/
def property (name : String) : Option String → List String
  | some value => [name ++ ":" ++ Json.quote value]
  | none => []

/-- The object literal of a binding. -/
def binding (b : Binding) : String :=
  "\x7b" ++ String.intercalate "," (["tp:" ++ Json.quote b.kind.tag, "key:" ++ Json.quote b.key] ++
    property "at" b.attr ++ property "bn" b.block) ++ "\x7d"

/-- The last argument of a template with an iteration expression. -/
def expressionArgument : Option String → String
  | some expression => "," ++ Json.quote expression
  | none => ""

mutual

/-- The expression that makes a template. -/
def template : CompiledTemplate → String
  | ⟨slots, skeleton, expression⟩ =>
      "new Template([" ++ String.intercalate "," (slotTexts slots) ++ "]," ++
        markupLiteral skeleton.markup ++ expressionArgument expression ++ ")"

def slotTexts : List (List (Reference CompiledTemplate)) → List String
  | [] => []
  | s :: ss => ("[" ++ String.intercalate "," (referenceTexts s) ++ "]") :: slotTexts ss

def referenceTexts : List (Reference CompiledTemplate) → List String
  | [] => []
  | r :: rs => reference r :: referenceTexts rs

def reference : Reference CompiledTemplate → String
  | .binding b => binding b
  | .template t => template t

end

/-- The lines that export templates, with a comma behind all but the last. -/
def exports : Bundle → Lines → Lines
  | [], ls => ls
  | (name, t) :: rest, ls =>
      let ls := ((ls.print (Json.quote name)).print ": ").print (template t)
      exports rest (ls.println (if rest.isEmpty then "" else ","))

/-- The module that exports a bundle, made with the runtime at a path. -/
def moduleWith (runtime : String) (bundle : Bundle) : String :=
  let ls := (Lines.start 0).println "\"use strict\";"
  let ls := ls.println ("var Template = require(" ++ Json.quote runtime ++ ");")
  let ls := (ls.println "module.exports = \x7b").increase
  let ls := (exports bundle ls).decrease.println "\x7d;"
  ls.source ++ "\n"

/-- The module that exports a bundle. -/
def standardModule (bundle : Bundle) : String := moduleWith defaultRuntime bundle

end Stencil.Script
