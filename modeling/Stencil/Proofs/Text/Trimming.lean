import Mathlib.Data.List.DropRight
import Stencil.Text.Blank

/-! # Trimming

What is left of a text without white space at its ends: a part of the text that neither begins
nor ends in white space.
-/

namespace Stencil.Text

variable {p : Char → Bool} {c : Char} {cs : List Char}

/-- White space is no brace. -/
theorem ne_of_isWhite (white : isWhite c = true) : c ≠ '{' ∧ c ≠ '}' := by
  constructor
  · rintro rfl
    exact absurd white (by decide)
  · rintro rfl
    exact absurd white (by decide)

theorem dropEndWhile_cons (p : Char → Bool) (c : Char) (cs : List Char) :
    dropEndWhile p (c :: cs) =
      if dropEndWhile p cs = [] ∧ p c = true then [] else c :: dropEndWhile p cs := by
  rw [dropEndWhile]
  cases dropEndWhile p cs with
  | nil => by_cases drops : p c = true <;> simp [drops]
  | cons d ds => simp

theorem dropEndWhile_eq_rdropWhile (p : Char → Bool) (cs : List Char) :
    dropEndWhile p cs = cs.rdropWhile p := by
  induction cs with
  | nil => rfl
  | cons c cs ih =>
      rw [dropEndWhile_cons, ih, List.rdropWhile, List.rdropWhile, List.reverse_cons, List.dropWhile_append]
      cases left : cs.reverse.dropWhile p with
      | nil => by_cases drops : p c = true <;> simp [drops]
      | cons d ds => simp

theorem dropEndWhile_eq_nil : dropEndWhile p cs = [] ↔ ∀ c ∈ cs, p c = true := by
  rw [dropEndWhile_eq_rdropWhile, List.rdropWhile_eq_nil_iff]

theorem dropEndWhile_begins (p : Char → Bool) (cs : List Char) : dropEndWhile p cs <+: cs := by
  rw [dropEndWhile_eq_rdropWhile]
  exact List.rdropWhile_prefix p cs

/-- White space in front of a text is trimmed off. -/
theorem trim_white_append {before : List Char} (white : ∀ c ∈ before, isWhite c = true) (cs : List Char) :
    trim (before ++ cs) = trim cs := by
  rw [trim, List.dropWhile_append_of_pos white, trim]

theorem trim_cons (solid : ¬isWhite c = true) (cs : List Char) :
    trim (c :: cs) = c :: dropEndWhile isWhite cs := by
  rw [trim, List.dropWhile_cons_of_neg solid, dropEndWhile_cons, if_neg fun both => solid both.2]

/-- What is left begins in a character that is not white. -/
theorem head?_trim (cs : List Char) : ∀ c ∈ (trim cs).head?, isWhite c = false := by
  intro c first
  obtain ⟨more, begins⟩ := List.head?_eq_some_iff.1 first
  obtain ⟨behind, whole⟩ := dropEndWhile_begins isWhite (cs.dropWhile isWhite)
  have left : cs.dropWhile isWhite = c :: (more ++ behind) := by
    rw [← whole, ← List.cons_append, ← begins, trim]
  have solid := List.head?_dropWhile_not isWhite cs
  rw [left] at solid
  exact solid

/-- What is left ends in a character that is not white. -/
theorem getLast?_trim (cs : List Char) : ∀ c ∈ (trim cs).getLast?, isWhite c = false := by
  intro c last
  have some_left : trim cs ≠ [] := by
    rintro empty
    rw [empty] at last
    cases last
  have solid := List.rdropWhile_last_not isWhite (cs.dropWhile isWhite)
    (by rwa [← dropEndWhile_eq_rdropWhile])
  rw [List.getLast?_eq_getLast_of_ne_nil some_left] at last
  cases last
  simpa [trim, dropEndWhile_eq_rdropWhile] using solid

theorem mem_of_mem_trim (mem : c ∈ trim cs) : c ∈ cs :=
  (List.dropWhile_suffix isWhite).mem ((dropEndWhile_begins isWhite _).mem mem)

end Stencil.Text
