import Stencil.Text.Blank

/-! # Iteration expressions

A repeated region names the path of its items and, optionally, the name that each item
has inside the region.
-/

namespace Stencil

structure Iteration where
  /-- The path of the items. -/
  source : String
  /-- The name of an item inside the region. -/
  itemName : Option String
  deriving DecidableEq, Repr, Inhabited

namespace Iteration

/-- Reads one or two words. -/
def parse? (expression : String) : Option Iteration :=
  match Text.words expression.toList with
  | [source] => some { source := String.ofList source, itemName := none }
  | [source, name] =>
      some { source := String.ofList source, itemName := some (String.ofList name) }
  | _ => none

end Iteration

end Stencil
