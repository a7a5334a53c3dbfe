import Stencil.Document.Edit

/-! # Handlers

A handler writes a value into its target: the content of a node or one of its attributes.
The built-in ones treat attributes alike, which receive the value itself.
-/

namespace Stencil

/-- Where a binding writes. -/
inductive Target where
  /-- The content of a node. -/
  | content (node : NodeId)
  /-- An attribute of a node. -/
  | attr (node : NodeId) (name : String)
  deriving DecidableEq, Repr, Inhabited

namespace Target

def node : Target → NodeId
  | content node => node
  | attr node _ => node

def isAttribute : Target → Bool
  | content _ => false
  | attr _ _ => true

end Target

/-- The causes for which a handler fails. -/
inductive HandlerError where
  /-- A value of this type cannot be called. -/
  | notInvokable (typeName : String)
  /-- A handler of the host program refuses a value, in its own words. -/
  | refused (words : String)
  /-- An operation on nodes that was refused; it ends the whole rendering. -/
  | dom (e : DomError)
  deriving DecidableEq, Repr, Inhabited

def HandlerError.message : HandlerError → String
  | notInvokable typeName => "Value of type " ++ typeName ++ " is not invokable"
  | refused words => words
  | dom e => e.message

/-- A change of a document by a handler. One that fails leaves behind what it did before. -/
abbrev Writing : Type → Type := EStateM HandlerError Document

/-- An edit as a part of a handler. -/
def Writing.edit {α : Type} (e : Edit α) : Writing α := fun d =>
  match e d with
  | .ok a d => .ok a d
  | .error error d => .error (.dom error) d

/-- A handler of the host program may do anything to the document, but does the same whenever
it is called with the same target and value on the same document: it has no state of its own. -/
abbrev Handler : Type := Target → Value → Writing Unit

namespace Handler

/-- Shows a text in a node: in its first child, if that is a text, or else in a new text
behind its children. -/
def showText (node : NodeId) (words : String) : Edit Unit := do
  match ← Edit.ask (·.firstChild? node) with
  | some child =>
      match ← Edit.ask (·.data child) with
      | .text _ => Document.setText child words
      | _ => Document.append node (← Document.createText words)
  | none => Document.append node (← Document.createText words)

/-- Writes the text of a value. -/
def escaped : Handler
  | .attr node name, value => Writing.edit (Document.setAttributeValue node name value)
  | .content node, value => Writing.edit (showText node value.text)

/-- Writes the text of a value as markup. -/
def literal : Handler
  | .attr node name, value => Writing.edit (Document.setAttributeValue node name value)
  | .content node, value => Writing.edit (Document.setInner node value.text)

/-- The text of the finite number that a value is or writes, else of no number. -/
def numeralText (value : Value) : String := (value.finite?.map Number.text).getD "NaN"

/-- Writes a number. -/
def numeral : Handler := fun target value => literal target (.string (numeralText value))

/-- Writes the text of the result of a function. An attribute receives the function. -/
def function : Handler
  | .attr node name, value => Writing.edit (Document.setAttributeValue node name value)
  | .content node, value =>
      match value.invoke? with
      | some result => escaped (.content node) result
      | none => throw (.notInvokable value.typeName)

end Handler

end Stencil
