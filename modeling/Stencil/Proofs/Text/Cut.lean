import Stencil.Text.Cut

/-! # First occurrences

Where a separator is found when it stands behind a text in which it does not begin; and that it
begins nowhere before the place where it is found.
-/

namespace Stencil.Text

theorem after?_append (sep text : List Char) : after? sep (sep ++ text) = some text := by
  induction sep with
  | nil => rfl
  | cons s sep ih => simp [after?, ih]

/-- A separator is found behind a text if it begins nowhere before. -/
theorem breakOn?_of_first {sep before after : List Char} (some_sep : sep ≠ [])
    (first : ∀ front back, before = front ++ back → back ≠ [] →
      after? sep (back ++ sep ++ after) = none) :
    breakOn? sep (before ++ sep ++ after) = some (before, after) := by
  induction before with
  | nil =>
      cases sep with
      | nil => exact (some_sep rfl).elim
      | cons s sep =>
          have found := after?_append (s :: sep) after
          simp only [List.nil_append, List.cons_append] at found ⊢
          rw [breakOn?, found]
  | cons c before ih =>
      have here := first [] (c :: before) rfl (by simp)
      have further := ih fun front back same some_back =>
        first (c :: front) back (by rw [same, List.cons_append]) some_back
      simp only [List.cons_append] at here ⊢
      rw [breakOn?, here, further]
      rfl

/-- A separator of one character is found behind a text without that character. -/
theorem breakOn?_single {c : Char} {before : List Char} (after : List Char) (out : c ∉ before) :
    breakOn? [c] (before ++ c :: after) = some (before, after) := by
  have found : breakOn? [c] (before ++ [c] ++ after) = some (before, after) := by
    refine breakOn?_of_first (by simp) fun front back same some_back => ?_
    cases back with
    | nil => exact (some_back rfl).elim
    | cons b back =>
        have other : c ≠ b := by
          rintro rfl
          exact out (by simp [same])
        simp [after?, other]
  simpa using found

/-- Two texts that are cut at the first of a character are the same in both parts. -/
theorem eq_of_append_cons {c : Char} {as bs xs ys : List Char} (outA : c ∉ as) (outB : c ∉ bs)
    (same : as ++ c :: xs = bs ++ c :: ys) : as = bs ∧ xs = ys := by
  have cut := breakOn?_single xs outA
  rw [same, breakOn?_single ys outB] at cut
  cases cut
  exact ⟨rfl, rfl⟩

/-- The end of a comment is found behind a text that does not hold it. -/
theorem breakOn?_comment {value : List Char} (after : List Char)
    (out : ¬['-', '-', '>'] <:+: value) :
    breakOn? ['-', '-', '>'] (value ++ '-' :: '-' :: '>' :: after) = some (value, after) := by
  have found : breakOn? ['-', '-', '>'] (value ++ ['-', '-', '>'] ++ after) = some (value, after) := by
    refine breakOn?_of_first (by simp) fun front back same some_back => ?_
    cases starts : after? ['-', '-', '>'] (back ++ ['-', '-', '>'] ++ after) with
    | none => rfl
    | some rest =>
        have whole := after?_eq_some starts
        match back, same, some_back, whole with
        | [a], _, _, whole => simp at whole
        | [a, b], _, _, whole => simp at whole
        | a :: b :: c :: back, same, _, whole =>
            simp only [List.cons_append, List.cons.injEq] at whole
            obtain ⟨rfl, rfl, rfl, -⟩ := whole
            exact (out ⟨front, back, by simp [same]⟩).elim
  simpa using found

/-- A separator that is not found at the beginning does not begin there. -/
theorem not_begins_of_after? {sep text : List Char} (h : after? sep text = none) : ¬sep <+: text := by
  rintro ⟨rest, rfl⟩
  rw [after?_append] at h
  cases h

/-- A separator is found where there is one. -/
theorem not_infix_of_breakOn? {sep text : List Char} (h : breakOn? sep text = none) :
    ¬sep <:+: text := by
  induction text with
  | nil =>
      intro inside
      obtain rfl := List.infix_nil.1 inside
      cases h
  | cons c cs ih =>
      rw [breakOn?] at h
      split at h
      · cases h
      · rename_i nowhere
        have further : breakOn? sep cs = none := by simpa using h
        intro inside
        rcases List.infix_cons_iff.1 inside with begins | inside
        · exact not_begins_of_after? nowhere begins
        · exact ih further inside

/-- It is the first that is found. -/
theorem not_infix_before {sep text before after : List Char} (some_sep : sep ≠ [])
    (h : breakOn? sep text = some (before, after)) : ¬sep <:+: before := by
  induction text generalizing before with
  | nil =>
      rw [breakOn?, if_neg (by simpa using some_sep)] at h
      cases h
  | cons c cs ih =>
      have whole := breakOn?_eq_some h
      rw [breakOn?] at h
      split at h
      · cases h
        exact fun inside => some_sep (List.infix_nil.1 inside)
      · rename_i nowhere
        obtain ⟨⟨front, back⟩, found, same⟩ := Option.map_eq_some_iff.1 h
        cases same
        intro inside
        rcases List.infix_cons_iff.1 inside with begins | inside
        · refine not_begins_of_after? nowhere (begins.trans ?_)
          rw [whole, List.append_assoc]
          exact List.prefix_append _ _
        · exact ih found inside

end Stencil.Text
