/-! # Render kinds

How a value is written into the place that a directive names. Each kind has a short
tag in artifacts; a tag that is none of the five built-in ones stands for a kind of
the host program.
-/

namespace Stencil

inductive RenderKind where
  /-- As text. -/
  | escaped
  /-- As markup. -/
  | literal
  /-- As a number. -/
  | numeral
  /-- As the result of a call. -/
  | function
  /-- As a rendered fragment. -/
  | fragment
  /-- By a handler of the host program. -/
  | custom (tag : String)
  deriving DecidableEq, Repr, Inhabited

namespace RenderKind

/-- The tag of a kind in artifacts. -/
def tag : RenderKind → String
  | escaped => ""
  | literal => "L"
  | numeral => "N"
  | function => "!"
  | fragment => "F"
  | custom tag => tag

/-- The kind that a tag stands for. -/
def ofTag (tag : String) : RenderKind :=
  if tag = "" then escaped
  else if tag = "L" then literal
  else if tag = "N" then numeral
  else if tag = "!" then function
  else if tag = "F" then fragment
  else custom tag

/-- A kind is canonical when its tag reads back as itself. -/
def IsCanonical (kind : RenderKind) : Prop := ofTag kind.tag = kind

instance (kind : RenderKind) : Decidable kind.IsCanonical :=
  inferInstanceAs (Decidable (_ = _))

@[simp] theorem tag_ofTag (tag : String) : (ofTag tag).tag = tag := by
  unfold ofTag
  repeat' split
  all_goals simp_all [RenderKind.tag]

theorem isCanonical_ofTag (tag : String) : (ofTag tag).IsCanonical := by
  simp [IsCanonical]

/-- The name of a kind in messages. -/
def name : RenderKind → String
  | escaped => "escaped"
  | literal => "literal"
  | numeral => "numeral"
  | function => "function"
  | fragment => "fragment"
  | custom tag => "custom '" ++ tag ++ "'"

end RenderKind

end Stencil
