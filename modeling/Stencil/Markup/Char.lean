/-! # Characters of markup

The classes of characters on which the reading of markup turns. All of them lie in ASCII.
-/

namespace Stencil.Markup

/-- Space, tab, line feed, carriage return, vertical tab and form feed. -/
def isBlank (c : Char) : Bool :=
  c == ' ' || c == '\t' || c == '\n' || c == '\r' || c == '\x0b' || c == '\x0c'

/-- Quotes that may stand around an attribute value. -/
def isQuote (c : Char) : Bool := c == '\'' || c == '"'

/-- Characters that end the name of a tag or attribute. -/
def isNameEnd (c : Char) : Bool :=
  isBlank c || c == '>' || c == '<' || c == '/' || c == '\'' || c == '"' || c == '='

/-- Whether a text consists of blanks. -/
def isBlankText (text : String) : Bool := text.toList.all isBlank

theorem isNameEnd_of_isBlank {c : Char} (h : isBlank c = true) : isNameEnd c = true := by
  simp [isNameEnd, h]

theorem not_isNameEnd_of_isAlpha {c : Char} (h : c.isAlpha = true) : isNameEnd c = false := by
  cases hc : isNameEnd c with
  | false => rfl
  | true =>
      simp only [isNameEnd, isBlank, Bool.or_eq_true, beq_iff_eq] at hc
      rcases hc with (((((((((((rfl | rfl) | rfl) | rfl) | rfl) | rfl) | rfl) | rfl) | rfl) | rfl) |
        rfl) | rfl) <;> exact absurd h (by decide)

end Stencil.Markup
