import Stencil.Value

/-! # Scopes

The names that are visible while a template is rendered. A frame names one value or
shows the fields of a value; inner frames come before outer ones.
-/

namespace Stencil

/-- One layer of a scope. -/
inductive Frame where
  /-- A name for a value. -/
  | named (name : String) (value : Value)
  /-- The fields of a value under their own names. -/
  | fields (value : Value)
  deriving Inhabited

namespace Frame

/-- The value of a name in one layer. -/
def lookup? (name : String) : Frame → Option Value
  | named own value => if own = name then some value else none
  | fields value => value.get? name

end Frame

/-- The layers of a scope, the innermost first. -/
abbrev Scope : Type := List Frame

namespace Scope

/-- The scope in which the fields of a context are visible. -/
def ofContext (context : Value) : Scope := [.fields context]

/-- The value of a name in the innermost layer that has one. -/
def lookup? (scope : Scope) (name : String) : Option Value := scope.findSome? (Frame.lookup? name)

/-- The value that a dotted path reaches. -/
def resolve? (scope : Scope) (path : String) : Option Value :=
  match (Text.splitOn ['.'] path.toList).map String.ofList with
  | [] => none
  | head :: segments => (scope.lookup? head).bind fun v => segments.foldlM Value.get? v

end Scope

end Stencil
