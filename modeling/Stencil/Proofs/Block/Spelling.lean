import Stencil.Proofs.Block.Matching
import Stencil.Proofs.Text.Tiles

/-! # The spelling of block tags

A block tag is spelled with a name and arguments of name characters, white space between them,
and white space around them or none. Whatever is spelled so is read as this tag, and nothing else
is. A tag therefore does not depend on what stands behind it, and holds no character that has no
place in its spelling.
-/

namespace Stencil

open Text

namespace BlockTag

/-- A run of name characters that is not empty. -/
def IsName (cs : List Char) : Prop := cs ≠ [] ∧ ∀ c ∈ cs, isNameChar c = true

/-- White space between the sigil and the name, between the name and the arguments, and in front of
the closing braces. -/
structure Spacing where
  before : List Char
  between : List Char
  behind : List Char

/-- The text of a tag with white space as given. -/
def spelling (sigil : Char) (name : List Char) (args : Option (List Char)) (space : Spacing) : List Char :=
  '{' :: '{' :: sigil ::
    (space.before ++ (name ++ (space.between ++ (args.getD [] ++ (space.behind ++ ['}', '}'])))))

/-- White space that may stand in a tag with these arguments. -/
structure Spacing.Fits (space : Spacing) (args : Option (List Char)) : Prop where
  white : ∀ c ∈ space.before ++ space.between ++ space.behind, isWhite c = true
  apart : args ≠ none → space.between ≠ []

/-- The tag has a sigil, a name and arguments, and is written as a tag with them. -/
structure Spelled (tag : BlockTag) : Prop where
  sigil : isSigil tag.sigil = true
  name : IsName tag.name
  args : ∀ run ∈ tag.args, IsName run
  text : ∃ space : Spacing, space.Fits tag.args ∧ tag.text = spelling tag.sigil tag.name tag.args space

/-! ## Runs -/

section Runs

variable {p : Char → Bool} {run rest : List Char}

theorem takeWhile_run (all : ∀ c ∈ run, p c = true) (stops : ∀ c ∈ rest.head?, ¬p c = true) :
    (run ++ rest).takeWhile p = run := by
  rw [List.takeWhile_append_of_pos all]
  cases rest with
  | nil => exact List.append_nil run
  | cons c rest => rw [List.takeWhile_cons_of_neg (stops c rfl), List.append_nil]

theorem dropWhile_run (all : ∀ c ∈ run, p c = true) (stops : ∀ c ∈ rest.head?, ¬p c = true) :
    (run ++ rest).dropWhile p = rest := by
  rw [List.dropWhile_append_of_pos all]
  cases rest with
  | nil => rfl
  | cons c rest => rw [List.dropWhile_cons_of_neg (stops c rfl)]

theorem isName_takeWhile {cs : List Char} (some_run : cs.takeWhile isNameChar ≠ []) :
    IsName (cs.takeWhile isNameChar) :=
  ⟨some_run, fun _ => List.mem_takeWhile_imp⟩

end Runs

/-- White space ends where a name begins. -/
theorem IsName.solid {name : List Char} (h : IsName name) (rest : List Char) :
    ∀ c ∈ (name ++ rest).head?, ¬isWhite c = true := by
  obtain ⟨some_name, named⟩ := h
  cases name with
  | nil => exact (some_name rfl).elim
  | cons c name =>
      rintro _ ⟨⟩ white
      exact isNameChar_white white (named c List.mem_cons_self)

theorem braces_solid (rest : List Char) : ∀ c ∈ ('}' :: '}' :: rest).head?, ¬isWhite c = true := by
  rintro _ ⟨⟩
  decide

/-- A name ends before white space and before the closing braces. -/
theorem name_stops {space : List Char} (white : ∀ c ∈ space, isWhite c = true) (rest : List Char) :
    ∀ c ∈ (space ++ '}' :: rest).head?, ¬isNameChar c = true := by
  cases space with
  | nil =>
      rintro _ ⟨⟩
      decide
  | cons c space =>
      rintro _ ⟨⟩
      exact isNameChar_white (white c List.mem_cons_self)

/-! ## What is read is spelled -/

/-- The arguments and the white space around them. -/
theorem exists_args (cs : List Char) :
    ∃ between behind : List Char, cs = between ++ ((args? cs).1.getD [] ++ (behind ++ (args? cs).2)) ∧
      (∀ c ∈ between ++ behind, isWhite c = true) ∧ ((args? cs).1 ≠ none → between ≠ []) ∧
        ∀ run ∈ (args? cs).1, IsName run := by
  have first := List.takeWhile_append_dropWhile (p := isWhite) (l := cs)
  have white (cs : List Char) : ∀ c ∈ cs.takeWhile isWhite, isWhite c = true := fun _ =>
    List.mem_takeWhile_imp
  rw [args?_eq]
  split
  · exact ⟨[], [], rfl, nofun, nofun, nofun⟩
  · rename_i some_white
    split
    · exact ⟨cs.takeWhile isWhite, [], first.symm, by simpa using white cs, nofun, nofun⟩
    · rename_i some_name
      have second := List.takeWhile_append_dropWhile (p := isNameChar) (l := skipWhite cs)
      have third := List.takeWhile_append_dropWhile (p := isWhite)
        (l := (skipWhite cs).dropWhile isNameChar)
      refine ⟨cs.takeWhile isWhite, ((skipWhite cs).dropWhile isNameChar).takeWhile isWhite, ?_,
        List.forall_mem_append.2 ⟨white _, white _⟩, fun _ => some_white, ?_⟩
      · change cs = cs.takeWhile isWhite ++ ((skipWhite cs).takeWhile isNameChar ++
          (((skipWhite cs).dropWhile isNameChar).takeWhile isWhite ++
            ((skipWhite cs).dropWhile isNameChar).dropWhile isWhite))
        rw [third, second]
        exact first.symm
      · rintro _ ⟨⟩
        exact isName_takeWhile some_name

/-- What is read as a tag is spelled as one. -/
theorem spelled_of_at? {text rest : List Char} {tag : BlockTag} (h : at? text = some (tag, rest)) :
    tag.Spelled := by
  obtain ⟨sigil, inner, rfl⟩ := at?_ne_none (by rw [h]; nofun)
  have whole := reads_at?.eq_append h
  rw [at?_behind] at h
  split at h
  · rename_i both
    obtain ⟨more, closed, same⟩ := Option.map_eq_some_iff.1 h
    obtain ⟨between, behind, parts, white, apart, named⟩ :=
      exists_args ((skipWhite inner).dropWhile isNameChar)
    obtain ⟨rfl, rfl⟩ := Prod.mk.inj same
    refine ⟨both.1, isName_takeWhile both.2, named, ⟨inner.takeWhile isWhite, between, behind⟩,
      ⟨?_, apart⟩, ?_⟩
    · rw [List.append_assoc]
      exact List.forall_mem_append.2 ⟨fun _ => List.mem_takeWhile_imp, white⟩
    · -- The parts of the text are the spelling, with the rest behind it.
      have first := List.takeWhile_append_dropWhile (p := isWhite) (l := inner)
      have second := List.takeWhile_append_dropWhile (p := isNameChar) (l := skipWhite inner)
      have text : inner = inner.takeWhile isWhite ++ ((skipWhite inner).takeWhile isNameChar ++
          (between ++ ((args? ((skipWhite inner).dropWhile isNameChar)).1.getD [] ++
            (behind ++ (['}', '}'] ++ more))))) := by
        rw [after?_eq_some closed] at parts
        rw [← parts, second]
        exact first.symm
      refine List.append_cancel_right (whole.symm.trans ?_)
      refine (congrArg ('{' :: '{' :: sigil :: ·) text).trans ?_
      simp [spelling]
  · cases h

/-! ## What is spelled is read -/

theorem args?_spelled {args : Option (List Char)} {between behind : List Char}
    (white : ∀ c ∈ between ++ behind, isWhite c = true) (apart : args ≠ none → between ≠ [])
    (named : ∀ run ∈ args, IsName run) (rest : List Char) :
    args? (between ++ (args.getD [] ++ (behind ++ '}' :: '}' :: rest))) = (args, '}' :: '}' :: rest) := by
  obtain ⟨front, back⟩ := List.forall_mem_append.1 white
  rw [args?_eq]
  cases args with
  | none =>
      have space := takeWhile_run white (braces_solid rest)
      have skipped := dropWhile_run white (braces_solid rest)
      rw [Option.getD_none, List.nil_append, ← List.append_assoc, space, skipWhite, skipped]
      split
      · rename_i none_white
        rw [none_white, List.nil_append]
      · rw [if_pos (List.takeWhile_cons_of_neg (by decide))]
  | some run =>
      have name := named run rfl
      have space := takeWhile_run front (name.solid (behind ++ '}' :: '}' :: rest))
      have skipped := dropWhile_run front (name.solid (behind ++ '}' :: '}' :: rest))
      rw [Option.getD_some, space, if_neg (apart (Option.some_ne_none run)), skipWhite, skipped,
        takeWhile_run name.2 (name_stops back _), if_neg name.1, dropWhile_run name.2 (name_stops back _),
        skipWhite, dropWhile_run back (braces_solid rest)]

/-- What is spelled as a tag is read as this tag, whatever stands behind it. -/
theorem Spelled.at? {tag : BlockTag} (h : tag.Spelled) (rest : List Char) :
    at? (tag.text ++ rest) = some (tag, rest) := by
  obtain ⟨⟨before, between, behind⟩, fits, same⟩ := h.text
  obtain ⟨front, back⟩ := List.forall_mem_append.1 (List.append_assoc before between behind ▸ fits.white)
  have whole : tag.text ++ rest = '{' :: '{' :: tag.sigil :: (before ++ (tag.name ++
      (between ++ (tag.args.getD [] ++ (behind ++ '}' :: '}' :: rest))))) := by
    simp [same, spelling]
  have stops : ∀ c ∈ (between ++ (tag.args.getD [] ++ (behind ++ '}' :: '}' :: rest))).head?,
      ¬isNameChar c = true := by
    cases args : tag.args with
    | none =>
        rw [Option.getD_none, List.nil_append, ← List.append_assoc]
        exact name_stops back _
    | some run =>
        have some_white := fits.apart (by rw [args]; nofun)
        cases between with
        | nil => exact (some_white rfl).elim
        | cons c between =>
            rintro _ ⟨⟩
            exact isNameChar_white (back c (List.mem_append_left _ List.mem_cons_self))
  have skipped := dropWhile_run front (h.name.solid
    (between ++ (tag.args.getD [] ++ (behind ++ '}' :: '}' :: rest))))
  have run := takeWhile_run h.name.2 stops
  have read : BlockTag.at? (tag.text ++ rest) =
      some ({ tag with text := consumed (tag.text ++ rest) rest }, rest) := by
    rw [whole, at?_behind, skipWhite, skipped, run, if_pos ⟨h.sigil, h.name.1⟩,
      dropWhile_run h.name.2 stops, args?_spelled back fits.apart h.args]
    rfl
  rw [read, consumed_self]

theorem at?_eq_some_iff {text rest : List Char} {tag : BlockTag} :
    at? text = some (tag, rest) ↔ tag.Spelled ∧ text = tag.text ++ rest := by
  constructor
  · intro h
    exact ⟨spelled_of_at? h, reads_at?.eq_append h⟩
  · rintro ⟨spelled, rfl⟩
    exact spelled.at? rest

/-- Tags do not depend on what stands behind them. -/
theorem local_at? : Text.Reader.Local at? BlockTag.text := fun h more => (spelled_of_at? h).at? more

/-- The characters that have a place in tags. -/
def hasPlace (c : Char) : Bool :=
  c == '{' || c == '}' || isSigil c || isWhite c || isNameChar c

theorem Spelled.hasPlace {tag : BlockTag} (h : tag.Spelled) : ∀ c ∈ tag.text, hasPlace c = true := by
  obtain ⟨space, fits, same⟩ := h.text
  intro c mem
  have args : c ∈ tag.args.getD [] → isNameChar c = true := by
    cases given : tag.args with
    | none => nofun
    | some run => exact (h.args run given).2 c
  have white := fits.white c
  have named := h.name.2 c
  have sigil := h.sigil
  rw [same] at mem
  simp only [spelling, List.mem_cons, List.mem_append, List.not_mem_nil, or_false] at mem white
  simp only [BlockTag.hasPlace, Bool.or_eq_true, beq_iff_eq]
  grind

end BlockTag

end Stencil
