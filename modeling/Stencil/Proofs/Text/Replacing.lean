import Mathlib.Data.List.Infix
import Stencil.Proofs.Text.Cut

/-! # Replacing

Replacing in a text is replacing in its parts, one behind the other, unless an occurrence
begins in one part and ends in the next.
-/

namespace Stencil.Text

/-! ## From the left -/

theorem after?_eq_none {sep text : List Char} (out : ¬sep <+: text) : after? sep text = none := by
  cases found : after? sep text with
  | none => rfl
  | some rest => exact (out ⟨rest, (after?_eq_some found).symm⟩).elim

theorem joinWith_append_cons (new front piece : List Char) (more : List (List Char)) :
    joinWith new ((front ++ piece) :: more) = front ++ joinWith new (piece :: more) := by
  cases more with
  | nil => rfl
  | cons next more => simp only [joinWith, List.append_assoc]

theorem splitOn_found {old : List Char} (some_old : old ≠ []) (rest : List Char) :
    splitOn old (old ++ rest) = [] :: splitOn old rest := by
  have found : breakOn? old (old ++ rest) = some ([], rest) := by
    cases old with
    | nil => exact (some_old rfl).elim
    | cons o old =>
        have here := after?_append (o :: old) rest
        rw [List.cons_append] at here ⊢
        rw [breakOn?, here]
  have shorter : rest.length < (old ++ rest).length := by
    have := List.length_pos_iff.2 some_old
    rw [List.length_append]
    omega
  rw [splitOn, found]
  dsimp only
  rw [if_pos shorter]

theorem splitOn_cons {old : List Char} {c : Char} {cs : List Char} (out : ¬old <+: c :: cs) :
    ∃ piece more, splitOn old cs = piece :: more ∧ splitOn old (c :: cs) = (c :: piece) :: more := by
  have here := after?_eq_none out
  have some_old : old ≠ [] := by
    rintro rfl
    exact out (List.nil_prefix)
  rw [splitOn.eq_1 old cs, splitOn.eq_1 old (c :: cs), breakOn?, here]
  cases found : breakOn? old cs with
  | none => exact ⟨cs, [], rfl, rfl⟩
  | some pair =>
      obtain ⟨before, after⟩ := pair
      have whole := congrArg List.length (breakOn?_eq_some found)
      have long := List.length_pos_iff.2 some_old
      simp only [List.length_append] at whole
      refine ⟨before, splitOn old after, ?_, ?_⟩
      · dsimp only
        rw [if_pos (by omega)]
      · dsimp only [Option.map_some]
        rw [if_pos (by rw [List.length_cons]; omega)]

/-- A text that holds the separator is cut. -/
theorem two_le_length_splitOn {old text : List Char} (some_old : old ≠ []) (inside : old <:+: text) :
    2 ≤ (splitOn old text).length := by
  induction text with
  | nil => exact (some_old (List.infix_nil.1 inside)).elim
  | cons c cs ih =>
      by_cases here : old <+: c :: cs
      · obtain ⟨rest, same⟩ := here
        have further := List.length_pos_iff.2 (splitOn_ne_nil old rest)
        rw [← same, splitOn_found some_old, List.length_cons]
        omega
      · obtain ⟨piece, more, rest, whole⟩ := splitOn_cons here
        have further := ih ((List.infix_cons_iff.1 inside).resolve_left here)
        rw [rest] at further
        rw [whole]
        exact further

/-- Joining with a separator that is shorter by `n` bytes saves them at every seam. -/
theorem byteLength_joinWith {old new : List Char} {n : Nat}
    (shorter : byteLength new + n = byteLength old) : (pieces : List (List Char)) →
    byteLength (joinWith new pieces) + n * (pieces.length - 1) = byteLength (joinWith old pieces)
  | [] => rfl
  | [piece] => by simp [joinWith]
  | piece :: next :: more => by
      have further := byteLength_joinWith shorter (next :: more)
      simp only [List.length_cons, Nat.add_sub_cancel] at further ⊢
      simp only [joinWith, byteLength_append, Nat.mul_add] at further ⊢
      omega

section

variable {old : List Char} (new : List Char)

theorem replaceAll_nil (some_old : old ≠ []) : replaceAll old new [] = [] := by
  have empty : old.isEmpty = false := by simpa using some_old
  simp [replaceAll, splitOn, breakOn?, empty, joinWith]

/-- An occurrence at the beginning is replaced. -/
theorem replaceAll_found (some_old : old ≠ []) (rest : List Char) :
    replaceAll old new (old ++ rest) = new ++ replaceAll old new rest := by
  rw [replaceAll, splitOn_found some_old, joinWith_cons_of_ne_nil _ _ (splitOn_ne_nil old rest),
    List.nil_append]
  rfl

/-- A character at which no occurrence begins stays. -/
theorem replaceAll_cons {c : Char} {cs : List Char} (out : ¬old <+: c :: cs) :
    replaceAll old new (c :: cs) = c :: replaceAll old new cs := by
  obtain ⟨piece, more, rest, whole⟩ := splitOn_cons out
  have cons := joinWith_append_cons new [c] piece more
  rw [replaceAll, replaceAll, rest, whole]
  exact cons

theorem replaceAll_of_absent {text : List Char} (some_old : old ≠ []) (out : ¬old <:+: text) :
    replaceAll old new text = text := by
  induction text with
  | nil => exact replaceAll_nil new some_old
  | cons c cs ih =>
      rw [List.infix_cons_iff, not_or] at out
      rw [replaceAll_cons new out.1, ih out.2]

/-! ## Parts -/

/-- No occurrence begins in the first text and ends in the second. -/
def Apart (old front back : List Char) : Prop :=
  ∀ before after, before ≠ [] → after ≠ [] → before <:+ front → after <+: back →
    before ++ after ≠ old

/-- What ends a text never stands before the end of an occurrence. -/
theorem apart_of_last {front back : List Char} {last : Char} (out : last ∉ old.dropLast)
    (ends : front.getLast? = some last) : Apart old front back := by
  rintro before after some_before some_after ⟨more, rfl⟩ - rfl
  apply out
  rw [List.dropLast_append_of_ne_nil some_after]
  apply List.mem_append_left
  rw [List.getLast?_append_of_ne_nil _ some_before] at ends
  exact List.mem_of_getLast? ends

/-- No occurrence begins in a text without its first character. -/
theorem apart_of_first {front back : List Char} {c : Char} (begins : old.head? = some c)
    (out : c ∉ front) : Apart old front back := by
  rintro before after some_before - inside - rfl
  cases before with
  | nil => exact some_before rfl
  | cons b before =>
      cases begins
      exact out (inside.subset List.mem_cons_self)

/-- No occurrence ends in a text without its last character. -/
theorem apart_of_end {front back : List Char} {c : Char} (ends : old.getLast? = some c)
    (out : c ∉ back) : Apart old front back := by
  rintro before after - some_after - inside rfl
  rw [List.getLast?_append_of_ne_nil _ some_after] at ends
  exact out (inside.subset (List.mem_of_getLast? ends))

/-- What begins a text never stands behind the beginning of an occurrence. -/
theorem apart_of_head {front back : List Char} (out : ∀ c ∈ back.head?, c ∉ old.tail) :
    Apart old front back := by
  rintro before after some_before some_after - ⟨more, rfl⟩ rfl
  cases after with
  | nil => exact some_after rfl
  | cons c after =>
      apply out c rfl
      rw [List.tail_append_of_ne_nil some_before]
      exact List.mem_append_right _ List.mem_cons_self

/-- An occurrence behind a text stands apart, if its end is never its beginning. -/
theorem apart_self {front : List Char}
    (borderless : ∀ n < old.length, 0 < n → ¬old.drop n <+: old) : Apart old front old := by
  intro before after some_before some_after _ begins same
  have here : old.drop before.length = after := by rw [← same, List.drop_left]
  have first := List.length_pos_iff.2 some_before
  have further := List.length_pos_iff.2 some_after
  have long : before.length < old.length := by
    rw [← same, List.length_append]
    omega
  rw [← here] at begins
  exact borderless before.length long first begins

theorem Apart.tail {front more back : List Char} (h : Apart old (front ++ more) back) :
    Apart old more back := fun before after some_before some_after inside =>
  h before after some_before some_after (inside.trans (List.suffix_append front more))

theorem replaceAll_append (some_old : old ≠ []) : (front back : List Char) → Apart old front back →
    replaceAll old new (front ++ back) = replaceAll old new front ++ replaceAll old new back
  | [], back, _ => by rw [replaceAll_nil new some_old, List.nil_append, List.nil_append]
  | c :: front, back, apart => by
      by_cases here : old <+: c :: front
      · obtain ⟨rest, same⟩ := here
        have shorter : rest.length < (c :: front).length := by
          have := List.length_pos_iff.2 some_old
          rw [← same, List.length_append]
          omega
        rw [← same] at apart ⊢
        rw [List.append_assoc, replaceAll_found new some_old, replaceAll_found new some_old,
          replaceAll_append some_old rest back apart.tail, List.append_assoc]
      · have out : ¬old <+: c :: (front ++ back) := by
          rintro ⟨rest, same⟩
          rcases List.append_eq_append_iff.1 (same.trans (List.cons_append).symm) with
            ⟨more, whole, -⟩ | ⟨more, whole, begins⟩
          · exact here ⟨more, whole.symm⟩
          · cases more with
            | nil => exact here ⟨[], by rw [whole, List.append_nil, List.append_nil]⟩
            | cons d more =>
                exact apart (c :: front) (d :: more) (by simp) (by simp) (List.suffix_refl _)
                  ⟨rest, begins.symm⟩ whole.symm
        have whole : Apart old ([c] ++ front) back := apart
        have further := whole.tail
        rw [List.cons_append, replaceAll_cons new out, replaceAll_cons new here,
          replaceAll_append some_old front back further, List.cons_append]
termination_by front => front.length
decreasing_by
  · exact shorter
  · exact Nat.lt_succ_self front.length

end

theorem mem_joinWith {sep : List Char} {c : Char} : {pieces : List (List Char)} →
    c ∈ joinWith sep pieces → c ∈ sep ∨ ∃ piece ∈ pieces, c ∈ piece
  | [], mem => by simp [joinWith] at mem
  | [piece], mem => .inr ⟨piece, List.mem_singleton_self piece, mem⟩
  | piece :: next :: more, mem => by
      rw [joinWith_cons_of_ne_nil _ _ (List.cons_ne_nil next more), List.mem_append,
        List.mem_append] at mem
      rcases mem with (mem | mem) | mem
      · exact .inr ⟨piece, List.mem_cons_self, mem⟩
      · exact .inl mem
      · rcases mem_joinWith mem with mem | ⟨other, here, mem⟩
        · exact .inl mem
        · exact .inr ⟨other, List.mem_cons_of_mem piece here, mem⟩

/-- A text that holds another one holds a first one. -/
theorem exists_first {part : List Char} (some_part : part ≠ []) : (text : List Char) → part <:+: text →
    ∃ front back, text = front ++ part ++ back ∧ ¬part <:+: front
  | [], inside => (some_part (List.infix_nil.1 inside)).elim
  | c :: cs, inside => by
      by_cases here : part <+: c :: cs
      · obtain ⟨back, same⟩ := here
        exact ⟨[], back, same.symm, fun inside => some_part (List.infix_nil.1 inside)⟩
      · obtain ⟨front, back, same, first⟩ :=
          exists_first some_part cs ((List.infix_cons_iff.1 inside).resolve_left here)
        refine ⟨c :: front, back, by rw [same, List.cons_append, List.cons_append], fun inside => ?_⟩
        rcases List.infix_cons_iff.1 inside with begins | inside
        · refine here (begins.trans ?_)
          rw [same, List.append_assoc, ← List.cons_append]
          exact List.prefix_append _ _
        · exact first inside

end Stencil.Text
