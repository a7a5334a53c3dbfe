import Stencil.Compiled.Basic
import Stencil.Json.Reader

/-! # Artifacts

Compiled templates as JSON, under short field names, and bundles of templates by name.
Reading takes what writing gives. It also takes a structure as the array of its fields
in order and passes over fields that it does not know.
-/

namespace Stencil

namespace Binding

/-- An optional text under a key, left out if there is none. -/
def optionalField (key : String) : Option String → List (String × Json)
  | some s => [(key, .string s)]
  | none => []

def toJson (b : Binding) : Json :=
  .object ([("tp", .string b.kind.tag), ("key", .string b.key)] ++
    optionalField "at" b.attr ++ optionalField "bn" b.block)

/-- A text. -/
def textOf? : Json → Option String
  | .string s => some s
  | _ => none

/-- A text or nothing. -/
def optionalTextOf? : Json → Option (Option String)
  | .null => some none
  | .string s => some (some s)
  | _ => none

/-- The field with a key, which must not occur twice. -/
def single? (key : String) (fields : List (String × Json)) : Option (Option Json) :=
  match fields.filter (·.1 == key) with
  | [] => some none
  | [(_, j)] => some (some j)
  | _ => none

/-- An optional text field. -/
def optionalText? (key : String) (fields : List (String × Json)) : Option (Option String) := do
  match ← single? key fields with
  | none => return none
  | some j => optionalTextOf? j

/-- A text field that has to be there. -/
def text? (key : String) (fields : List (String × Json)) : Option String := do
  textOf? (← (← single? key fields))

/-- The binding that a document describes. -/
def ofJson? : Json → Option Binding
  | .object fields => do
      return {
        kind := .ofTag (← text? "tp" fields)
        key := ← text? "key" fields
        attr := ← optionalText? "at" fields
        block := ← optionalText? "bn" fields }
  | .array (kind :: key :: more) => do
      let kind := RenderKind.ofTag (← textOf? kind)
      let key ← textOf? key
      match more with
      | [] => return { kind, key }
      | [attr] => return { kind, key, attr := ← optionalTextOf? attr }
      | [attr, block] =>
          return { kind, key, attr := ← optionalTextOf? attr, block := ← optionalTextOf? block }
      | _ => none
  | _ => none

end Binding

namespace Skeleton

/-- The texts in a list of documents. -/
def texts? : List Json → Option (List String)
  | [] => some []
  | j :: js => do return (← Binding.textOf? j) :: (← texts? js)

/-- The static markup that a document describes. -/
def ofJson? : Json → Option Skeleton
  | .string s => some (plain s)
  | .array items => (texts? items).map split
  | _ => none

end Skeleton

/-- The fields of a template that have been read. -/
structure Draft where
  slots : Option (List (List (Reference CompiledTemplate))) := none
  skeleton : Option Skeleton := none
  expression : Option (Option String) := none

/-- The template of a draft with all necessary fields. -/
def Draft.finish? (draft : Draft) : Option CompiledTemplate := do
  return {
    slots := ← draft.slots
    skeleton := ← draft.skeleton
    expression := draft.expression.join }

namespace CompiledTemplate

mutual

/-- The JSON of a template. -/
def toJson : CompiledTemplate → Json
  | ⟨slots, skeleton, expression⟩ =>
      .object ([("refs", .array (slotsToJson slots)), ("html", skeleton.toJson)] ++
        Binding.optionalField "expr" expression)

def slotsToJson : List (List (Reference CompiledTemplate)) → List Json
  | [] => []
  | s :: ss => .array (slotToJson s) :: slotsToJson ss

def slotToJson : List (Reference CompiledTemplate) → List Json
  | [] => []
  | r :: rs => referenceToJson r :: slotToJson rs

def referenceToJson : Reference CompiledTemplate → Json
  | .binding b => b.toJson
  | .template t => toJson t

end

mutual

/-- The template that a document describes. -/
def ofJson? : Json → Option CompiledTemplate
  | .object fields => (draft? fields).bind Draft.finish?
  | .array [slots, skeleton] => do
      return { slots := ← slotsOf? slots, skeleton := ← Skeleton.ofJson? skeleton,
               expression := none }
  | .array [slots, skeleton, expression] => do
      return { slots := ← slotsOf? slots, skeleton := ← Skeleton.ofJson? skeleton,
               expression := ← Binding.optionalTextOf? expression }
  | _ => none

/-- The known fields of an object, none of which may occur twice. -/
def draft? : List (String × Json) → Option Draft
  | [] => some {}
  | (key, j) :: fields =>
      match draft? fields with
      | none => none
      | some draft =>
          if key = "refs" then
            if draft.slots.isSome then none
            else (slotsOf? j).map fun slots => { draft with slots := some slots }
          else if key = "html" then
            if draft.skeleton.isSome then none
            else (Skeleton.ofJson? j).map fun skeleton => { draft with skeleton := some skeleton }
          else if key = "expr" then
            if draft.expression.isSome then none
            else (Binding.optionalTextOf? j).map fun expression =>
              { draft with expression := some expression }
          else some draft

def slotsOf? : Json → Option (List (List (Reference CompiledTemplate)))
  | .array items => slotList? items
  | _ => none

def slotList? : List Json → Option (List (List (Reference CompiledTemplate)))
  | [] => some []
  | j :: js => do return (← slotOf? j) :: (← slotList? js)

def slotOf? : Json → Option (List (Reference CompiledTemplate))
  | .array items => referenceList? items
  | _ => none

def referenceList? : List Json → Option (List (Reference CompiledTemplate))
  | [] => some []
  | j :: js => do return (← referenceOf? j) :: (← referenceList? js)

/-- A binding, or else a template. -/
def referenceOf? (j : Json) : Option (Reference CompiledTemplate) :=
  match Binding.ofJson? j with
  | some b => some (.binding b)
  | none => (ofJson? j).map .template

end

/-- The fields of a template's JSON. -/
def fieldNames : List String := ["refs", "html", "expr"]

/-- The artifact of a template, on one line. -/
def print (t : CompiledTemplate) : String := t.toJson.print

/-- The artifact of a template, with a line for every item. -/
def pretty (t : CompiledTemplate) : String := t.toJson.pretty 0

/-- The template of an artifact. -/
def read? (text : String) : Option CompiledTemplate :=
  (Json.record? fieldNames text).bind ofJson?

end CompiledTemplate

/-- Templates by name, in order. No name occurs twice. -/
abbrev Bundle : Type := List (String × CompiledTemplate)

namespace Bundle

/-- Puts a template: a name that is there keeps its place, a new one comes last. -/
def put (name : String) (t : CompiledTemplate) : Bundle → Bundle
  | [] => [(name, t)]
  | (n, u) :: rest => if n = name then (n, t) :: rest else (n, u) :: put name t rest

/-- The bundle of these templates; of a repeated name the first place and the last
template count. -/
def ofList (entries : List (String × CompiledTemplate)) : Bundle :=
  entries.foldl (fun bundle (name, t) => put name t bundle) []

/-- The artifact of a bundle. -/
def print (b : Bundle) : String :=
  (Json.object (b.map fun (name, t) => (name, t.toJson))).pretty 0

/-- The templates under their names. -/
def entries? : List (String × Json) → Option (List (String × CompiledTemplate))
  | [] => some []
  | (name, j) :: rest => do return (name, ← CompiledTemplate.ofJson? j) :: (← entries? rest)

/-- The bundle of an artifact. -/
def read? (text : String) : Option Bundle := do
  return ofList (← entries? (← Json.records? CompiledTemplate.fieldNames text))

/-- Whether two bundles hold the same templates under the same names, in any order. -/
def same (a b : Bundle) : Bool :=
  a.length == b.length && a.all fun (name, t) =>
    match b.lookup name with
    | some u => t == u
    | none => false

end Bundle

end Stencil
