import Stencil.Document.Basic

/-! # Errors

The causes for which a template is not compiled, bound or rendered.
-/

namespace Stencil

inductive TemplateError where
  /-- A directive or block that is not well formed. -/
  | malformed (e : SyntaxError)
  /-- An operation on nodes that was refused. -/
  | dom (e : DomError)
  /-- A second handler for a tag. -/
  | handlerExists (tag : String)
  /-- A binding for whose kind there is no handler. -/
  | unknownKind (tag : String)
  /-- The host with this number, counted from one, has none of the slots. -/
  | missingSlot (host slots : Nat)
  /-- Slots are left when all hosts have theirs. -/
  | unusedSlots (unused hosts : Nat)
  /-- An iteration expression that is not one or two words. -/
  | iterationExpression (expression : String)
  deriving DecidableEq, Repr, Inhabited

namespace TemplateError

def message : TemplateError → String
  | malformed e => e.message
  | dom e => e.message
  | handlerExists tag => "A handler for template code '" ++ tag ++ "' already exists"
  | unknownKind tag => "No handler registered for template code '" ++ tag ++ "'"
  | missingSlot host slots =>
      "Reference table mismatch: host marker #" ++ toString host ++ " has no reference slot (" ++
        toString slots ++ " slots)"
  | unusedSlots unused hosts =>
      "Reference table mismatch: " ++ toString unused ++ " reference slots have no host marker (" ++
        toString hosts ++ " markers)"
  | iterationExpression expression => "Malformed iteration expression '" ++ expression ++ "'"

end TemplateError

end Stencil
