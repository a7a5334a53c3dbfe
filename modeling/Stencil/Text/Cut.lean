/-! # Cutting text

Lengths in bytes, the first occurrence of one text in another, and the pieces
between all occurrences. The pieces, joined again, give back the text.
-/

namespace Stencil.Text

/-- The number of bytes that the characters take in UTF-8. -/
def byteLength : List Char → Nat
  | [] => 0
  | c :: cs => c.utf8Size + byteLength cs

@[simp] theorem byteLength_nil : byteLength [] = 0 := rfl

@[simp] theorem byteLength_cons (c : Char) (cs : List Char) :
    byteLength (c :: cs) = c.utf8Size + byteLength cs := rfl

@[simp] theorem byteLength_append (as bs : List Char) :
    byteLength (as ++ bs) = byteLength as + byteLength bs := by
  induction as with
  | nil => simp
  | cons a as ih => simp [ih, Nat.add_assoc]

/-- Capital ASCII letters become small ones; all other characters stay. -/
def lowercase (cs : List Char) : List Char := cs.map Char.toLower

/-- The text with small ASCII letters in place of capital ones. -/
def lower (text : String) : String := String.ofList (lowercase text.toList)

/-- What follows `sep` at the beginning of a text. -/
def after? : List Char → List Char → Option (List Char)
  | [], text => some text
  | _ :: _, [] => none
  | s :: sep, c :: text => if s = c then after? sep text else none

theorem after?_eq_some {sep text rest : List Char} (h : after? sep text = some rest) :
    text = sep ++ rest := by
  induction sep generalizing text with
  | nil => simpa [after?] using h
  | cons s sep ih =>
      cases text with
      | nil => simp [after?] at h
      | cons c text =>
          simp only [after?] at h
          split at h
          · rename_i same
            simp [same, ih h]
          · simp at h

/-- The text before the first occurrence of `sep`, and the text after it. -/
def breakOn? (sep : List Char) : List Char → Option (List Char × List Char)
  | [] => if sep.isEmpty then some ([], []) else none
  | c :: cs =>
      match after? sep (c :: cs) with
      | some rest => some ([], rest)
      | none => (breakOn? sep cs).map fun (before, after) => (c :: before, after)

theorem breakOn?_eq_some {sep text before after : List Char}
    (h : breakOn? sep text = some (before, after)) : text = before ++ sep ++ after := by
  induction text generalizing before after with
  | nil =>
      simp only [breakOn?] at h
      split at h
      · rename_i empty
        have : sep = [] := by simpa using empty
        simp_all
      · simp at h
  | cons c cs ih =>
      simp only [breakOn?] at h
      split at h
      · rename_i rest found
        simp only [Option.some.injEq, Prod.mk.injEq] at h
        obtain ⟨rfl, rfl⟩ := h
        simpa using after?_eq_some found
      · simp only [Option.map_eq_some_iff] at h
        obtain ⟨⟨b, a⟩, found, same⟩ := h
        simp only [Prod.mk.injEq] at same
        obtain ⟨rfl, rfl⟩ := same
        simp [ih found]

/-- Whether `part` occurs in the text. -/
def holds (part text : List Char) : Bool := (breakOn? part text).isSome

/-- The pieces between the occurrences of `sep`, read from left to right. -/
def splitOn (sep text : List Char) : List (List Char) :=
  match breakOn? sep text with
  | none => [text]
  | some (before, after) =>
      if after.length < text.length then before :: splitOn sep after else [text]
termination_by text.length

/-- The pieces with `sep` between them. -/
def joinWith (sep : List Char) : List (List Char) → List Char
  | [] => []
  | [piece] => piece
  | piece :: more => piece ++ sep ++ joinWith sep more

theorem joinWith_cons_of_ne_nil (sep piece : List Char) {more : List (List Char)} (h : more ≠ []) :
    joinWith sep (piece :: more) = piece ++ sep ++ joinWith sep more := by
  cases more with
  | nil => exact (h rfl).elim
  | cons _ _ => rfl

theorem splitOn_ne_nil (sep text : List Char) : splitOn sep text ≠ [] := by
  rw [splitOn]
  split
  · simp
  · split <;> simp

/-- Joining the pieces again gives the text. -/
@[simp] theorem joinWith_splitOn (sep text : List Char) :
    joinWith sep (splitOn sep text) = text := by
  fun_induction splitOn sep text with
  | case1 => rfl
  | case2 text before after found shorter ih =>
      rw [joinWith_cons_of_ne_nil sep before (splitOn_ne_nil sep after), ih]
      exact (breakOn?_eq_some found).symm
  | case3 => rfl

/-- Every occurrence of `old`, read from left to right, becomes `new`. -/
def replaceAll (old new text : List Char) : List Char := joinWith new (splitOn old text)

end Stencil.Text
