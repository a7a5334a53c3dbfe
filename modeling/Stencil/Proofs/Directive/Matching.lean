import Stencil.Directive
import Stencil.Proofs.Text.Pattern
import Stencil.Proofs.Text.Trimming

/-! # The pattern of directives

Directives are what a pattern matches: two or three braces, the content with white space on
both sides, and two or three braces. The content may itself hold opening braces, and begins and
ends in a character that is not white. The pattern is tried from left to right with more
characters before fewer, and what it matches at a place is what the reader of directives takes.
-/

namespace Stencil

open Text Pattern

/-- The parts of a directive that a match keeps. -/
structure Captures where
  opening : List Char
  content : List Char
  closing : List Char
  whole : List Char
  deriving DecidableEq

namespace Captures

/-- Any character but a closing brace. -/
def isInner (c : Char) : Bool := c != '}'

/-- A character in which content may begin and end. -/
def isSolid (c : Char) : Bool := isInner c && !isWhite c

/-- More of the content behind its first character. -/
def extension : Pattern (List Char) :=
  (many isInner).bind fun run => (one isSolid).bind fun c => done (run ++ [c])

/-- `\{\{\{?` -/
def openingBraces : Pattern (List Char) :=
  (exactly ['{', '{']).bind fun two => (atMost ['{']).bind fun third => done (two ++ third)

/-- `\}\}\}?` -/
def closingBraces : Pattern (List Char) :=
  (exactly ['}', '}']).bind fun two => (atMost ['}']).bind fun third => done (two ++ third)

/-- White space and the closing braces behind the beginning of a directive. -/
def ending (opening before content : List Char) : Pattern Captures :=
  (many isWhite).bind fun after =>
    closingBraces.bind fun closing =>
      done ⟨opening, content, closing, opening ++ before ++ content ++ after ++ closing⟩

/-- What stands behind the opening braces. -/
def inside (opening : List Char) : Pattern Captures :=
  (many isWhite).bind fun before =>
    (one isSolid).bind fun c =>
      (orElse extension (done [])).bind fun more => ending opening before (c :: more)

/-- `(\{\{\{?)\s*([^}\s](?:[^}]*[^}\s])?)\s*(\}\}\}?)` -/
def pattern : Pattern Captures := openingBraces.bind inside

/-- The captures of a directive. -/
def ofMustache (m : Mustache) : Captures := ⟨m.opening, m.content, m.closing, m.text⟩

/-! ## The end of a directive -/

theorem closing?_cons {c : Char} (other : c ≠ '}') (cs : List Char) :
    Mustache.closing? (c :: cs) = none :=
  Mustache.closing?.eq_3 _ (fun _ same => other (List.cons.inj same).1)
    fun _ same => other (List.cons.inj same).1

theorem closingBraces_first? (cs : List Char) : closingBraces.first? cs = Mustache.closing? cs := by
  have third (rest : List Char) : ((atMost ['}']).bind fun third => done (['}', '}'] ++ third)).first? rest =
      ((after? ['}'] rest).map fun rest => (['}', '}', '}'], rest)).or (some (['}', '}'], rest)) := by
    rw [atMost, first?_orElse_bind, first?_exactly_bind, done_bind]
    cases after? ['}'] rest <;> rfl
  rw [closingBraces, first?_exactly_bind]
  unfold Mustache.closing?
  split
  · rename_i rest
    exact third ('}' :: rest)
  · rename_i rest other
    refine (third rest).trans ?_
    cases found : after? ['}'] rest with
    | none => rfl
    | some more => exact (other more (by rw [after?_eq_some found]; rfl)).elim
  · rename_i other
    cases found : after? ['}', '}'] cs with
    | none => rfl
    | some rest => exact (other rest (after?_eq_some found)).elim

theorem first?_ending (opening before content cs : List Char) :
    (ending opening before content).first? cs =
      (Mustache.closing? (cs.dropWhile isWhite)).map fun (closing, rest) =>
        (⟨opening, content, closing,
          opening ++ before ++ content ++ cs.takeWhile isWhite ++ closing⟩, rest) := by
  rw [ending, first?_many_bind]
  · rw [first?_bind_done, closingBraces_first?]
  · intro run c rest white
    rw [first?_bind_done, closingBraces_first?, closing?_cons (ne_of_isWhite white).2]
    rfl

/-! ## The content -/

section Extension

variable {γ : Type} {f : List Char → Pattern γ} {c : Char} {cs : List Char}

theorem extension_bind (f : List Char → Pattern γ) : extension.bind f =
    (many isInner).bind fun run => (one isSolid).bind fun d => f (run ++ [d]) := by
  simp only [extension, bind_assoc, done_bind]

theorem extension_bind_cons (inner : isInner c = true) :
    extension.bind f (c :: cs) =
      extension.bind (fun more => f (c :: more)) cs ++ if isSolid c then f [c] cs else [] := by
  have here : (one isSolid).bind (fun d => f ([] ++ [d])) (c :: cs) =
      if isSolid c then f [c] cs else [] := by
    by_cases solid : isSolid c = true <;> simp [Pattern.bind, one, solid]
  rw [extension_bind, many_bind_cons inner, here, extension_bind]
  rfl

theorem extension_bind_outer (outer : ¬isInner c = true) : extension.bind f (c :: cs) = [] := by
  have closes : ¬isSolid c = true := by simp [isSolid, outer]
  rw [extension_bind, many_bind_outside outer, Pattern.bind, one, if_neg closes, List.flatMap_nil]

/-- Nothing more is content if only white space stands before the closing braces. -/
theorem extension_bind_white (white : ∀ c ∈ cs.takeWhile isInner, isWhite c = true) :
    extension.bind f cs = [] := by
  induction cs generalizing f with
  | nil => rfl
  | cons c cs ih =>
      by_cases inner : isInner c = true
      · rw [List.takeWhile_cons_of_pos inner, List.forall_mem_cons] at white
        have soft : ¬isSolid c = true := by simp [isSolid, white.1]
        rw [extension_bind_cons inner, ih white.2, if_neg soft, List.append_nil]
      · exact extension_bind_outer inner

/-- White space up to the closing braces is all that stands before them. -/
theorem white_run (white : ∀ c ∈ cs.takeWhile isInner, isWhite c = true) :
    cs.takeWhile isWhite = cs.takeWhile isInner ∧ cs.dropWhile isWhite = cs.dropWhile isInner := by
  induction cs with
  | nil => exact ⟨rfl, rfl⟩
  | cons c cs ih =>
      by_cases inner : isInner c = true
      · rw [List.takeWhile_cons_of_pos inner, List.forall_mem_cons] at white
        obtain ⟨run, rest⟩ := ih white.2
        rw [List.takeWhile_cons_of_pos inner, List.dropWhile_cons_of_pos inner,
          List.takeWhile_cons_of_pos white.1, List.dropWhile_cons_of_pos white.1, run, rest]
        exact ⟨rfl, rfl⟩
      · have solid : ¬isWhite c = true := fun white =>
          inner (by simpa [isInner] using (ne_of_isWhite white).2)
        rw [List.takeWhile_cons_of_neg inner, List.dropWhile_cons_of_neg inner,
          List.takeWhile_cons_of_neg solid, List.dropWhile_cons_of_neg solid]
        exact ⟨rfl, rfl⟩

/-- Nothing is closed behind white space if something else stands before the closing braces. -/
theorem closing?_skip (filled : ¬∀ c ∈ cs.takeWhile isInner, isWhite c = true) :
    Mustache.closing? (cs.dropWhile isWhite) = none := by
  induction cs with
  | nil => rfl
  | cons c cs ih =>
      by_cases inner : isInner c = true
      · rw [List.takeWhile_cons_of_pos inner, List.forall_mem_cons] at filled
        by_cases white : isWhite c = true
        · rw [List.dropWhile_cons_of_pos white]
          exact ih fun all => filled ⟨white, all⟩
        · rw [List.dropWhile_cons_of_neg white]
          exact closing?_cons (by simpa [isInner] using inner) cs
      · rw [List.takeWhile_cons_of_neg inner] at filled
        exact (filled (List.forall_mem_nil _)).elim

/-- The content ends in the last character before the closing braces that is not white. -/
theorem first?_extension {g : List Char → List Char → List Char → γ}
    (ends : ∀ more cs, (f more).first? cs =
      (Mustache.closing? (cs.dropWhile isWhite)).map fun (closing, rest) =>
        (g more (more ++ cs.takeWhile isWhite) closing, rest)) (cs : List Char) :
    ((orElse extension (done [])).bind f).first? cs =
      (Mustache.closing? (cs.dropWhile isInner)).map fun (closing, rest) =>
        (g (dropEndWhile isWhite (cs.takeWhile isInner)) (cs.takeWhile isInner) closing, rest) := by
  rw [first?_orElse_bind, done_bind]
  induction cs generalizing f g with
  | nil =>
      rw [ends]
      rfl
  | cons c cs ih =>
      by_cases inner : isInner c = true
      · have further := ih (f := fun more => f (c :: more)) (g := fun more run => g (c :: more) (c :: run))
          fun more => ends (c :: more)
        rw [first?] at further
        rw [first?, extension_bind_cons inner, List.takeWhile_cons_of_pos inner,
          List.dropWhile_cons_of_pos inner, dropEndWhile_cons]
        by_cases white : isWhite c = true
        · have soft : ¬isSolid c = true := by simp [isSolid, white]
          rw [if_neg soft, List.append_nil, ends [], List.dropWhile_cons_of_pos white,
            List.takeWhile_cons_of_pos white]
          by_cases all : ∀ d ∈ cs.takeWhile isInner, isWhite d = true
          · obtain ⟨run, rest⟩ := white_run all
            rw [extension_bind_white all, if_pos ⟨dropEndWhile_eq_nil.2 all, white⟩, run, rest]
            rfl
          · have nothing := closing?_skip all
            rw [ends [c], nothing, Option.map_none, Option.or_none] at further
            rw [if_neg fun both => all (dropEndWhile_eq_nil.1 both.1), nothing, Option.map_none,
              Option.or_none]
            exact further
        · have solid : isSolid c = true := by simp [isSolid, inner, white]
          have other : c ≠ '}' := by simpa [isInner] using inner
          rw [if_pos solid, if_neg fun both => white both.2, List.head?_append, Option.or_assoc, ends [],
            List.dropWhile_cons_of_neg white, closing?_cons other, Option.map_none, Option.or_none]
          exact further
      · have brace : c = '}' := by simpa [isInner] using inner
        subst brace
        rw [first?, extension_bind_outer inner, ends]
        rfl

end Extension

/-- Behind the opening braces stands the content between white space, and the closing braces. -/
theorem first?_inside (opening cs : List Char) :
    (inside opening).first? cs =
      if trim (cs.takeWhile isInner) = [] then none
      else (Mustache.closing? (cs.dropWhile isInner)).map fun (closing, rest) =>
        (ofMustache ⟨opening, cs.takeWhile isInner, closing⟩, rest) := by
  have inner_of_white : ∀ c ∈ cs.takeWhile isWhite, isInner c = true := fun c mem =>
    by simpa [isInner] using (ne_of_isWhite (List.mem_takeWhile_imp mem)).2
  have run : cs.takeWhile isInner = cs.takeWhile isWhite ++ (cs.dropWhile isWhite).takeWhile isInner := by
    rw [← List.takeWhile_append_of_pos inner_of_white, List.takeWhile_append_dropWhile]
  have behind : (cs.takeWhile isWhite ++ cs.dropWhile isWhite).dropWhile isInner =
      (cs.dropWhile isWhite).dropWhile isInner := List.dropWhile_append_of_pos inner_of_white
  rw [List.takeWhile_append_dropWhile] at behind
  rw [inside, first?_many_bind, run, behind, trim_white_append fun c => List.mem_takeWhile_imp]
  · cases left : cs.dropWhile isWhite with
    | nil => rfl
    | cons c rest =>
        have first := List.head?_dropWhile_not isWhite cs
        simp only [left, List.head?_cons] at first
        have visible : ¬isWhite c = true := by simp [first]
        rw [first?_one_bind_cons]
        by_cases inner : isInner c = true
        · have solid : isSolid c = true := by simp [isSolid, inner, visible]
          have ended := first?_extension (f := fun more => ending opening (cs.takeWhile isWhite) (c :: more))
            (g := fun more run closing => ⟨opening, c :: more, closing,
              opening ++ cs.takeWhile isWhite ++ c :: run ++ closing⟩)
            (fun more ds => by rw [first?_ending]; simp) rest
          rw [if_pos solid, ended, List.takeWhile_cons_of_pos inner, List.dropWhile_cons_of_pos inner,
            trim_cons visible, if_neg (List.cons_ne_nil _ _)]
          simp [ofMustache, Mustache.content, Mustache.text, trim_white_append fun c => List.mem_takeWhile_imp,
            trim_cons visible]
        · have outer : ¬isSolid c = true := by simp [isSolid, inner]
          rw [if_neg outer, List.takeWhile_cons_of_neg inner]
          rfl
  · intro run c rest white
    rw [first?_one_bind_cons, if_neg (by simp [isSolid, white])]

/-! ## The pattern -/

theorem at?_triple (deeper : List Char) :
    Mustache.at? ('{' :: '{' :: '{' :: deeper) =
      (Mustache.closing? (deeper.dropWhile isInner)).map fun (closing, rest) =>
        (if trim (deeper.takeWhile isInner) = [] then
            ⟨['{', '{'], '{' :: deeper.takeWhile isInner, closing⟩
          else ⟨['{', '{', '{'], deeper.takeWhile isInner, closing⟩, rest) := by
  have run : ('{' :: deeper).takeWhile (· != '}') = '{' :: deeper.takeWhile isInner := rfl
  have behind : ('{' :: deeper).dropWhile (· != '}') = deeper.dropWhile isInner := rfl
  rw [Mustache.at?, behind]
  cases Mustache.closing? (deeper.dropWhile isInner) with
  | none => rfl
  | some found =>
      rw [run]
      by_cases white : trim (deeper.takeWhile isInner) = [] <;> simp [white]

theorem at?_double {inner : List Char} (other : inner.head? ≠ some '{') :
    Mustache.at? ('{' :: '{' :: inner) =
      if trim (inner.takeWhile isInner) = [] then none
      else (Mustache.closing? (inner.dropWhile isInner)).map fun (closing, rest) =>
        (⟨['{', '{'], inner.takeWhile isInner, closing⟩, rest) := by
  have run : inner.takeWhile (· != '}') = inner.takeWhile isInner := rfl
  have behind : inner.dropWhile (· != '}') = inner.dropWhile isInner := rfl
  rw [Mustache.at?, behind]
  cases Mustache.closing? (inner.dropWhile isInner) with
  | none => simp
  | some found =>
      obtain ⟨closing, rest⟩ := found
      simp only [run]
      split
      · rename_i deeper begins
        have starts : '{' :: deeper <+: inner := by
          rw [← begins]
          exact List.takeWhile_prefix isInner
        obtain ⟨more, rfl⟩ := starts
        exact (other rfl).elim
      · by_cases white : trim (inner.takeWhile isInner) = [] <;> simp [white]

theorem at?_single (text : List Char) (h : after? ['{', '{'] text = none) : Mustache.at? text = none := by
  unfold Mustache.at?
  split
  · cases h
  · rfl

/-- The pattern matches what the reader of directives takes. -/
theorem pattern_first? (cs : List Char) :
    pattern.first? cs = (Mustache.at? cs).map fun (m, rest) => (ofMustache m, rest) := by
  have third (rest : List Char) : ((atMost ['{']).bind fun third => inside (['{', '{'] ++ third)).first? rest =
      ((after? ['{'] rest).bind (inside ['{', '{', '{']).first?).or ((inside ['{', '{']).first? rest) := by
    rw [atMost, first?_orElse_bind, first?_exactly_bind, done_bind]
    rfl
  rw [pattern, openingBraces, bind_assoc]
  simp only [bind_assoc, done_bind]
  rw [first?_exactly_bind]
  cases found : after? ['{', '{'] cs with
  | none =>
      rw [at?_single cs found]
      rfl
  | some inner =>
      rw [after?_eq_some found]
      refine (third inner).trans ?_
      cases deep : after? ['{'] inner with
      | none =>
          have other : inner.head? ≠ some '{' := by
            rintro begins
            obtain ⟨deeper, rfl⟩ := List.head?_eq_some_iff.1 begins
            cases deep
          rw [first?_inside, List.cons_append, List.cons_append, List.nil_append, at?_double other]
          split
          · rfl
          · rw [Option.map_map]
            rfl
      | some deeper =>
          have brace : isInner '{' = true := rfl
          have solid : ¬isWhite '{' = true := by decide
          rw [after?_eq_some deep, Option.bind_some, first?_inside, first?_inside, List.cons_append,
            List.nil_append, List.takeWhile_cons_of_pos brace, List.dropWhile_cons_of_pos brace,
            trim_cons solid, if_neg (List.cons_ne_nil _ _), List.cons_append, List.cons_append,
            List.nil_append, at?_triple, Option.map_map]
          by_cases white : trim (deeper.takeWhile isInner) = []
          · simp only [if_pos white, Option.none_or]
            rfl
          · cases Mustache.closing? (deeper.dropWhile isInner) <;> simp [white]

/-- A third opening brace is content if nothing else is. -/
example : pattern.first? ['{', '{', '{', '}', '}', '}'] =
    some (⟨['{', '{'], ['{'], ['}', '}', '}'], ['{', '{', '{', '}', '}', '}']⟩, []) := by
  decide

end Captures

end Stencil
