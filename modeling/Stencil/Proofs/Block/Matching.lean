import Stencil.Block
import Stencil.Proofs.Text.Pattern
import Stencil.Proofs.Text.Trimming

/-! # The pattern of block tags

Block tags are what a pattern matches: two braces, a sigil, a name, optional arguments behind
white space, and two braces. White space is no part of names, so each run of white space and of
name characters is taken as long as possible. What the pattern matches is the tag that is read.
-/

namespace Stencil

open Text Pattern

namespace BlockTag

/-! ## Characters -/

/-- White space beyond the letters of ASCII, as ranges of code points. -/
def whiteRanges : List (Nat × Nat) :=
  [(0x85, 0x85), (0xA0, 0xA0), (0x1680, 0x1680), (0x2000, 0x200A), (0x2028, 0x2029),
    (0x202F, 0x202F), (0x205F, 0x205F), (0x3000, 0x3000)]

theorem wordRanges_apart : ∀ r ∈ wordRanges.toList, ∀ white ∈ whiteRanges, r.2 < white.1 ∨ white.2 < r.1 := by
  decide +kernel

theorem exists_whiteRange {c : Char} (white : isWhite c = true) (high : ¬c.toNat < 128) :
    ∃ r ∈ whiteRanges, r.1 ≤ c.toNat ∧ c.toNat ≤ r.2 := by
  simp only [isWhite, Bool.or_eq_true, Bool.and_eq_true, decide_eq_true_eq, beq_iff_eq] at white
  simp only [whiteRanges, List.mem_cons, List.not_mem_nil, or_false, exists_eq_or_imp, exists_eq_left]
  omega

/-- White space is no part of names. -/
theorem isNameChar_white {c : Char} (white : isWhite c = true) : ¬isNameChar c = true := by
  by_cases low : c.toNat < 128
  · have same := Char.ofNat_toNat c
    have code : c.toNat ∈ [9, 10, 11, 12, 13, 32] := by
      simp only [isWhite, Bool.or_eq_true, Bool.and_eq_true, decide_eq_true_eq, beq_iff_eq] at white
      simp only [List.mem_cons, List.not_mem_nil, or_false]
      omega
    have none_named : ∀ n ∈ [9, 10, 11, 12, 13, 32], ¬isNameChar (Char.ofNat n) = true := by decide
    have here := none_named c.toNat code
    rwa [same] at here
  · obtain ⟨gap, listed, above, below⟩ := exists_whiteRange white low
    have dot : c ≠ '.' := by
      rintro rfl
      exact low (by decide)
    simp only [isNameChar, isWordChar, if_neg low, inRanges, Bool.or_eq_true, beq_iff_eq, dot, or_false,
      Array.any_eq_true', Bool.and_eq_true, decide_eq_true_eq]
    rintro ⟨r, mem, lower, upper⟩
    have apart := wordRanges_apart r (Array.mem_toList_iff.2 mem) gap listed
    omega

theorem ne_brace_of_isNameChar {c : Char} (named : isNameChar c = true) : c ≠ '}' := by
  rintro rfl
  exact absurd named (by decide)

/-! ## The pattern -/

/-- Arguments behind white space, or nothing: `(?:\s+([\w.]+))?`, with all that is taken. -/
def arguments : Pattern (Option (List Char) × List Char) :=
  orElse
    ((atLeastOne isWhite).bind fun space =>
      (atLeastOne isNameChar).bind fun run => done (some run, space ++ run))
    (done (none, []))

/-- White space and the closing braces. -/
def ending : Pattern (List Char) :=
  (many isWhite).bind fun space =>
    (exactly ['}', '}']).bind fun closing => done (space ++ closing)

/-- What stands behind a name, given to a function of the arguments and all that is taken. -/
def behindName (tag : Option (List Char) → List Char → BlockTag) : Pattern BlockTag :=
  arguments.bind fun (args, taken) => ending.bind fun closing => done (tag args (taken ++ closing))

/-- What stands behind a sigil. -/
def behindSigil (opening : List Char) (sigil : Char) : Pattern BlockTag :=
  (many isWhite).bind fun space =>
    (atLeastOne isNameChar).bind fun name =>
      behindName fun args taken =>
        { sigil, name, args, text := opening ++ sigil :: (space ++ name ++ taken) }

/-- `\{\{([#$/^])\s*([\w.]+)(?:\s+([\w.]+))?\s*\}\}` -/
def pattern : Pattern BlockTag :=
  (exactly ['{', '{']).bind fun opening => (one isSigil).bind (behindSigil opening)

/-! ## What is taken -/

theorem consumed_self (front rest : List Char) : consumed (front ++ rest) rest = front := by
  simp [consumed]

theorem consumed_append {text rest : List Char} (ends : rest <:+ text) : consumed text rest ++ rest = text := by
  obtain ⟨front, rfl⟩ := ends
  rw [consumed_self]

theorem consumed_front {text rest : List Char} (front : List Char) (ends : rest <:+ text) :
    consumed (front ++ text) rest = front ++ consumed text rest := by
  obtain ⟨inside, rfl⟩ := ends
  rw [← List.append_assoc, consumed_self, consumed_self]

theorem dropWhile_isWhite (cs : List Char) : cs.dropWhile isWhite = skipWhite cs := rfl

/-- Two runs in a row are taken before what stands behind them. -/
theorem consumed_runs {p q : Char → Bool} {text rest : List Char}
    (ends : rest <:+ (text.dropWhile p).dropWhile q) :
    consumed text rest = text.takeWhile p ++ (text.dropWhile p).takeWhile q ++
      consumed ((text.dropWhile p).dropWhile q) rest := by
  rw [← consumed_front _ ends, List.append_assoc, List.takeWhile_append_dropWhile,
    List.takeWhile_append_dropWhile]

theorem suffix_of_after? {sep text rest : List Char} (found : after? sep text = some rest) : rest <:+ text :=
  ⟨sep, (after?_eq_some found).symm⟩

/-! ## The end of a tag -/

theorem after?_braces {c : Char} (other : c ≠ '}') (cs : List Char) : after? ['}', '}'] (c :: cs) = none := by
  rw [after?, if_neg (Ne.symm other)]

/-- Nothing is closed where a name begins. -/
theorem after?_name {cs : List Char} (named : cs.takeWhile isNameChar ≠ []) : after? ['}', '}'] cs = none := by
  cases cs with
  | nil => rfl
  | cons c cs =>
      have first : isNameChar c = true := Classical.byContradiction fun other =>
        named (List.takeWhile_cons_of_neg other)
      exact after?_braces (ne_brace_of_isNameChar first) cs

theorem ending_first? (cs : List Char) :
    ending.first? cs = (after? ['}', '}'] (skipWhite cs)).map fun rest => (consumed cs rest, rest) := by
  rw [ending, first?_many_bind]
  · rw [first?_exactly_bind, skipWhite]
    cases found : after? ['}', '}'] (cs.dropWhile isWhite) with
    | none => rfl
    | some rest =>
        have whole : cs = (cs.takeWhile isWhite ++ ['}', '}']) ++ rest := by
          rw [List.append_assoc, ← after?_eq_some found, List.takeWhile_append_dropWhile]
        have taken : consumed cs rest = cs.takeWhile isWhite ++ ['}', '}'] := by
          conv => lhs; rw [whole]
          rw [consumed_self]
        rw [Option.bind_some, first?_done, Option.map_some, taken]
  · intro run c rest white
    rw [first?_exactly_bind, after?_braces (ne_of_isWhite white).2, Option.bind_none]

/-- No tag ends where a name goes on. -/
theorem ending_named {c : Char} (named : isNameChar c = true) (cs : List Char) :
    ending.first? (c :: cs) = none := by
  have solid : ¬isWhite c = true := fun white => isNameChar_white white named
  rw [ending_first?, skipWhite, List.dropWhile_cons_of_neg solid,
    after?_braces (ne_brace_of_isNameChar named), Option.map_none]

theorem dropWhile_of_takeWhile {p : Char → Bool} {cs : List Char} (empty : cs.takeWhile p = []) :
    cs.dropWhile p = cs := by
  have whole := List.takeWhile_append_dropWhile (p := p) (l := cs)
  rwa [empty] at whole

/-- The arguments are the name characters behind white space, if there are any. -/
theorem args?_eq (cs : List Char) :
    args? cs =
      if cs.takeWhile isWhite = [] then (none, cs)
      else if (skipWhite cs).takeWhile isNameChar = [] then (none, skipWhite cs)
      else (some ((skipWhite cs).takeWhile isNameChar), skipWhite ((skipWhite cs).dropWhile isNameChar)) := by
  cases cs with
  | nil => rfl
  | cons c cs =>
      rw [args?]
      by_cases white : isWhite c = true
      · rw [if_pos white, List.takeWhile_cons_of_pos white, if_neg (List.cons_ne_nil _ _), nameRun]
        cases run : (skipWhite (c :: cs)).takeWhile isNameChar with
        | nil => rw [if_pos rfl, dropWhile_of_takeWhile run]
        | cons d run => rw [if_neg (List.cons_ne_nil _ _)]
      · rw [if_neg white, List.takeWhile_cons_of_neg white, if_pos rfl]

theorem first?_ended (tag : List Char → BlockTag) (cs : List Char) :
    (ending.bind fun closing => done (tag closing)).first? cs =
      (after? ['}', '}'] (skipWhite cs)).map fun rest => (tag (consumed cs rest), rest) := by
  rw [first?_bind_done, ending_first?, Option.map_map]
  rfl

theorem first?_behindName (tag : Option (List Char) → List Char → BlockTag) (cs : List Char) :
    (behindName tag).first? cs =
      (after? ['}', '}'] (args? cs).2).map fun rest => (tag (args? cs).1 (consumed cs rest), rest) := by
  rw [behindName, arguments, first?_orElse_bind, done_bind, bind_assoc]
  simp only [bind_assoc, done_bind]
  rw [first?_atLeastOne_bind, args?_eq, first?_ended]
  · by_cases tight : cs.takeWhile isWhite = []
    · have stays : skipWhite cs = cs := dropWhile_of_takeWhile tight
      rw [if_pos tight, if_pos tight, Option.none_or, stays]
      rfl
    · rw [if_neg tight, if_neg tight, first?_atLeastOne_bind, dropWhile_isWhite]
      · by_cases unnamed : (skipWhite cs).takeWhile isNameChar = []
        · rw [if_pos unnamed, if_pos unnamed, Option.none_or]
          rfl
        · -- Without its arguments the tag would have to end where they begin.
          rw [if_neg unnamed, if_neg unnamed, first?_ended, after?_name unnamed, Option.map_none,
            Option.or_none]
          cases closed : after? ['}', '}'] (skipWhite ((skipWhite cs).dropWhile isNameChar)) with
          | none => rfl
          | some rest =>
              have ends := (suffix_of_after? closed).trans (List.dropWhile_suffix isWhite)
              have taken : consumed cs rest = cs.takeWhile isWhite ++ (skipWhite cs).takeWhile isNameChar ++
                  consumed ((skipWhite cs).dropWhile isNameChar) rest := consumed_runs ends
              rw [Option.map_some, Option.map_some, taken]
      · intro run c rest named
        rw [first?_bind_done, ending_named named, Option.map_none]
  · intro run c rest white
    rw [first?_atLeastOne_outside (isNameChar_white white)]

/-! ## Reading a tag -/

theorem at?_behind (sigil : Char) (inner : List Char) :
    at? ('{' :: '{' :: sigil :: inner) =
      if isSigil sigil = true ∧ (skipWhite inner).takeWhile isNameChar ≠ [] then
        (after? ['}', '}'] (args? ((skipWhite inner).dropWhile isNameChar)).2).map fun rest =>
          ({ sigil, name := (skipWhite inner).takeWhile isNameChar,
             args := (args? ((skipWhite inner).dropWhile isNameChar)).1,
             text := consumed ('{' :: '{' :: sigil :: inner) rest }, rest)
      else none := by
  rw [at?, nameRun]
  by_cases known : isSigil sigil = true
  · rw [if_pos known]
    cases run : (skipWhite inner).takeWhile isNameChar with
    | nil => rw [if_neg fun both => both.2 rfl]
    | cons c name =>
        rw [if_pos ⟨known, List.cons_ne_nil _ _⟩]
        simp only
        split
        · rename_i closed
          rw [closed]
          rfl
        · rename_i other
          cases found : after? ['}', '}'] (args? ((skipWhite inner).dropWhile isNameChar)).2 with
          | none => rfl
          | some rest => exact (other _ rest (Prod.ext rfl (after?_eq_some found))).elim
  · rw [if_neg known, if_neg fun both => known both.1]

/-- A tag begins with two braces and a sigil. -/
theorem at?_ne_none {text : List Char} (h : at? text ≠ none) :
    ∃ sigil inner, text = '{' :: '{' :: sigil :: inner := by
  unfold at? at h
  split at h
  · exact ⟨_, _, rfl⟩
  · exact (h rfl).elim

theorem suffix_args? (cs : List Char) : (args? cs).2 <:+ cs := by
  rw [args?_eq]
  split
  · exact List.suffix_refl cs
  · split
    · exact List.dropWhile_suffix isWhite
    · exact ((List.dropWhile_suffix isWhite).trans (List.dropWhile_suffix isNameChar)).trans
        (List.dropWhile_suffix isWhite)

/-- The reader of block tags consumes exactly their text. -/
theorem reads_at? : Text.Reader.Reads at? BlockTag.text := by
  have taken {text rest : List Char} {tag : BlockTag} (h : at? text = some (tag, rest)) :
      tag.text = consumed text rest ∧ rest <:+ text ∧ rest ≠ text := by
    obtain ⟨sigil, inner, rfl⟩ := at?_ne_none (by rw [h]; nofun)
    rw [at?_behind] at h
    split at h
    · obtain ⟨more, closed, same⟩ := Option.map_eq_some_iff.1 h
      cases same
      have ends : rest <:+ inner := (suffix_of_after? closed).trans <|
        (suffix_args? _).trans <| (List.dropWhile_suffix isNameChar).trans (List.dropWhile_suffix isWhite)
      refine ⟨rfl, ends.trans ⟨['{', '{', sigil], rfl⟩, ?_⟩
      rintro rfl
      have short := ends.length_le
      simp only [List.length_cons] at short
      omega
    · cases h
  constructor
  · intro text tag rest h
    obtain ⟨same, ends, -⟩ := taken h
    rw [same, consumed_append ends]
  · intro text tag rest h empty
    obtain ⟨same, ends, other⟩ := taken h
    have whole := consumed_append ends
    rw [← same, empty] at whole
    exact other whole

/-- No name is followed by a name character. -/
theorem behindName_named (tag : Option (List Char) → List Char → BlockTag) {c : Char}
    (named : isNameChar c = true) (cs : List Char) : (behindName tag).first? (c :: cs) = none := by
  have solid : ¬isWhite c = true := fun white => isNameChar_white white named
  rw [first?_behindName, args?_eq, List.takeWhile_cons_of_neg solid, if_pos rfl,
    after?_braces (ne_brace_of_isNameChar named), Option.map_none]

theorem first?_behindSigil (opening : List Char) (sigil : Char) (inner : List Char) :
    (behindSigil opening sigil).first? inner =
      if (skipWhite inner).takeWhile isNameChar = [] then none
      else
        (after? ['}', '}'] (args? ((skipWhite inner).dropWhile isNameChar)).2).map fun rest =>
          ({ sigil, name := (skipWhite inner).takeWhile isNameChar,
             args := (args? ((skipWhite inner).dropWhile isNameChar)).1,
             text := opening ++ sigil :: consumed inner rest }, rest) := by
  rw [behindSigil, first?_many_bind, first?_atLeastOne_bind, dropWhile_isWhite]
  · by_cases unnamed : (skipWhite inner).takeWhile isNameChar = []
    · rw [if_pos unnamed, if_pos unnamed]
    · rw [if_neg unnamed, if_neg unnamed, first?_behindName]
      cases closed : after? ['}', '}'] (args? ((skipWhite inner).dropWhile isNameChar)).2 with
      | none => rfl
      | some rest =>
          have ends := (suffix_of_after? closed).trans (suffix_args? _)
          have taken : consumed inner rest = inner.takeWhile isWhite ++
              (skipWhite inner).takeWhile isNameChar ++
                consumed ((skipWhite inner).dropWhile isNameChar) rest := consumed_runs ends
          rw [Option.map_some, Option.map_some, taken]
  · intro run c rest named
    exact behindName_named _ named rest
  · intro run c rest white
    exact first?_atLeastOne_outside (isNameChar_white white)

/-- The pattern matches what the reader of block tags takes. -/
theorem pattern_first? (cs : List Char) : pattern.first? cs = at? cs := by
  rw [pattern, first?_exactly_bind]
  cases found : after? ['{', '{'] cs with
  | none =>
      refine (Classical.byContradiction fun there => ?_ : at? cs = none).symm
      obtain ⟨sigil, inner, rfl⟩ := at?_ne_none there
      cases found
  | some rest =>
      rw [after?_eq_some found, Option.bind_some]
      cases rest with
      | nil => rfl
      | cons sigil inner =>
          rw [first?_one_bind_cons, List.cons_append, List.cons_append, List.nil_append, at?_behind,
            first?_behindSigil]
          by_cases known : isSigil sigil = true
          · by_cases unnamed : (skipWhite inner).takeWhile isNameChar = []
            · rw [if_pos known, if_pos unnamed, if_neg fun both => both.2 unnamed]
            · rw [if_pos known, if_neg unnamed, if_pos ⟨known, unnamed⟩]
              cases closed : after? ['}', '}'] (args? ((skipWhite inner).dropWhile isNameChar)).2 with
              | none => rfl
              | some rest =>
                  have ends : rest <:+ inner := (suffix_of_after? closed).trans <|
                    (suffix_args? _).trans <|
                      (List.dropWhile_suffix isNameChar).trans (List.dropWhile_suffix isWhite)
                  have taken := consumed_front ['{', '{', sigil] ends
                  rw [Option.map_some, Option.map_some]
                  simp only [List.cons_append, List.nil_append] at taken ⊢
                  rw [taken]
          · rw [if_neg known, if_neg fun both => known both.1]

end BlockTag

end Stencil
