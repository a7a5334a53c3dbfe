import Stencil.Markup.Tree

/-! # Escaping

Decoding undoes the escaping of texts and of attribute values, and escaped text is free of
the characters that would end it.
-/

namespace Stencil.Markup

/-! ## References -/

theorem decode_of_ne {c : Char} {cs : List Char} (h : c ≠ '&') :
    decode (c :: cs) = c :: decode cs := by
  rw [decode, if_neg h]

theorem decode_reference {d : Char} {cs rest : List Char} (h : reference? cs = some (d, rest)) :
    decode ('&' :: cs) = d :: decode rest := by
  rw [decode, if_pos rfl]
  split
  · rename_i found
    rw [h] at found
    cases found
    rfl
  · rename_i missing
    rw [h] at missing
    cases missing

theorem decode_amp (rest : List Char) : decode ("&amp;".toList ++ rest) = '&' :: decode rest :=
  decode_reference rfl

theorem decode_lt (rest : List Char) : decode ("&lt;".toList ++ rest) = '<' :: decode rest :=
  decode_reference rfl

theorem decode_gt (rest : List Char) : decode ("&gt;".toList ++ rest) = '>' :: decode rest :=
  decode_reference rfl

theorem decode_quot (rest : List Char) : decode ("&quot;".toList ++ rest) = '"' :: decode rest :=
  decode_reference rfl

/-! ## Texts and attribute values -/

theorem decode_escapedTextChar (c : Char) (rest : List Char) :
    decode (escapedTextChar c ++ rest) = c :: decode rest := by
  unfold escapedTextChar
  split
  · exact decode_amp rest
  · exact decode_lt rest
  · exact decode_gt rest
  · rename_i amp _ _
    exact decode_of_ne amp

theorem decode_escapedAttributeChar (c : Char) (rest : List Char) :
    decode (escapedAttributeChar c ++ rest) = c :: decode rest := by
  unfold escapedAttributeChar
  split
  · exact decode_amp rest
  · exact decode_quot rest
  · rename_i amp _
    exact decode_of_ne amp

theorem decode_nil : decode [] = [] := by rw [decode]

theorem decode_escapedText (cs : List Char) : decode (cs.flatMap escapedTextChar) = cs := by
  induction cs with
  | nil => exact decode_nil
  | cons c cs ih => rw [List.flatMap_cons, decode_escapedTextChar, ih]

theorem decode_escapedAttribute (cs : List Char) :
    decode (cs.flatMap escapedAttributeChar) = cs := by
  induction cs with
  | nil => exact decode_nil
  | cons c cs ih => rw [List.flatMap_cons, decode_escapedAttributeChar, ih]

theorem not_mem_escapedText (cs : List Char) : '<' ∉ cs.flatMap escapedTextChar := by
  rw [List.mem_flatMap]
  rintro ⟨c, -, mem⟩
  unfold escapedTextChar at mem
  split at mem
  · exact absurd mem (by decide)
  · exact absurd mem (by decide)
  · exact absurd mem (by decide)
  · rename_i less _
    exact less (List.mem_singleton.1 mem).symm

theorem not_mem_escapedAttribute (cs : List Char) : '"' ∉ cs.flatMap escapedAttributeChar := by
  rw [List.mem_flatMap]
  rintro ⟨c, -, mem⟩
  unfold escapedAttributeChar at mem
  split at mem
  · exact absurd mem (by decide)
  · exact absurd mem (by decide)
  · rename_i quot
    exact quot (List.mem_singleton.1 mem).symm

theorem escapedTextChar_eq_cons {c : Char} (h : c ≠ '\n') :
    ∃ d ds, escapedTextChar c = d :: ds ∧ d ≠ '\n' := by
  unfold escapedTextChar
  split
  · exact ⟨_, _, rfl, by decide⟩
  · exact ⟨_, _, rfl, by decide⟩
  · exact ⟨_, _, rfl, by decide⟩
  · exact ⟨_, _, rfl, h⟩

/-- Escaped text begins with a line feed only if the text does. -/
theorem escapedText_ne_newline {cs : List Char} (h : ∀ rest, cs ≠ '\n' :: rest) :
    ∀ rest, cs.flatMap escapedTextChar ≠ '\n' :: rest := by
  intro rest begins
  cases cs with
  | nil => cases begins
  | cons c cs =>
      have first : c ≠ '\n' := fun same => h cs (by rw [same])
      obtain ⟨d, ds, escaped, other⟩ := escapedTextChar_eq_cons first
      rw [List.flatMap_cons, escaped] at begins
      exact other (List.cons.inj begins).1

end Stencil.Markup
