/-! # Tiling a text

A reader recognises one thing at the beginning of a text. From left to right, the
things that it recognises and the pieces between them tile the text: put in order
they are the text again.
-/

namespace Stencil.Text

/-- Recognises a thing at the beginning of a text and gives the text after it. -/
abbrev Reader (α : Type) := List Char → Option (α × List Char)

/-- A reader consumes exactly what `print` writes for the thing that it recognises, and
never nothing. -/
structure Reader.Reads {α : Type} (read : Reader α) (print : α → List Char) : Prop where
  eq_append : ∀ {text a rest}, read text = some (a, rest) → text = print a ++ rest
  ne_nil : ∀ {text a rest}, read text = some (a, rest) → print a ≠ []

/-- The first thing in a text, with the text before and after it. -/
structure Found (α : Type) where
  before : List Char
  thing : α
  after : List Char
  deriving DecidableEq, Repr

/-- The first place at which the reader recognises something. -/
def find? {α : Type} (read : Reader α) : List Char → Option (Found α)
  | [] => none
  | c :: cs =>
      match read (c :: cs) with
      | some (thing, after) => some ⟨[], thing, after⟩
      | none => (find? read cs).map fun found => { found with before := c :: found.before }

theorem find?_eq_some {α : Type} {read : Reader α} {print : α → List Char}
    (reads : read.Reads print) {text : List Char} {found : Found α}
    (h : find? read text = some found) :
    text = found.before ++ print found.thing ++ found.after := by
  induction text generalizing found with
  | nil => simp [find?] at h
  | cons c cs ih =>
      simp only [find?] at h
      split at h
      · rename_i thing after hread
        simp only [Option.some.injEq] at h
        subst h
        simpa using reads.eq_append hread
      · obtain ⟨inner, hfind, rfl⟩ := Option.map_eq_some_iff.1 h
        simp [ih hfind]

theorem find?_after_length_lt {α : Type} {read : Reader α} {print : α → List Char}
    (reads : read.Reads print) {text : List Char} {found : Found α}
    (h : find? read text = some found) : found.after.length < text.length := by
  induction text generalizing found with
  | nil => simp [find?] at h
  | cons c cs ih =>
      simp only [find?] at h
      split at h
      · rename_i thing after hread
        simp only [Option.some.injEq] at h
        subst h
        have whole := congrArg List.length (reads.eq_append hread)
        have nonempty := List.length_pos_iff.2 (reads.ne_nil hread)
        simp only [List.length_append] at whole
        change after.length < _
        omega
      · obtain ⟨inner, hfind, rfl⟩ := Option.map_eq_some_iff.1 h
        have := ih hfind
        simp only [List.length_cons]
        omega

/-- Everything that the reader recognises, each with the piece before it, and the piece
after the last. -/
def tiles {α : Type} (read : Reader α) (text : List Char) : List (List Char × α) × List Char :=
  match find? read text with
  | none => ([], text)
  | some found =>
      if found.after.length < text.length then
        let (more, trailing) := tiles read found.after
        ((found.before, found.thing) :: more, trailing)
      else ([], text)
termination_by text.length

/-- The pieces in order are the text. -/
theorem tiles_append {α : Type} {read : Reader α} {print : α → List Char}
    (reads : read.Reads print) (text : List Char) :
    ((tiles read text).1.flatMap fun (before, a) => before ++ print a) ++ (tiles read text).2 =
      text := by
  fun_induction tiles read text with
  | case1 => rfl
  | case2 text found h shorter more trailing heq ih =>
      rw [heq] at ih
      simp only [List.flatMap_cons, List.append_assoc] at ih ⊢
      rw [ih, ← List.append_assoc]
      exact (find?_eq_some reads h).symm
  | case3 => rfl

end Stencil.Text
