import Stencil.Proofs.Markup.Lexemes

/-! # Reading in front of more

A text that is read without a flaw is read as the same tokens when more markup stands behind it: no
tag, comment or doctype goes on, and no text does, since markup begins with a less-than sign. Only
content that is read as it stands must have come to its closing tag.
-/

namespace Stencil

namespace Text

theorem after?_append_of_none {sep text : List Char} (more : List Char) (size : sep.length ≤ text.length)
    (h : after? sep text = none) : after? sep (text ++ more) = none := by
  induction sep generalizing text with
  | nil => cases h
  | cons s sep ih =>
      cases text with
      | nil => cases size
      | cons c text =>
          simp only [List.cons_append, after?] at h ⊢
          split
          · rename_i same
            rw [if_pos same] at h
            exact ih (Nat.le_of_succ_le_succ size) h
          · rfl

theorem after?_append_of_some {sep text rest : List Char} (more : List Char)
    (h : after? sep text = some rest) : after? sep (text ++ more) = some (rest ++ more) := by
  rw [after?_eq_some h, List.append_assoc, after?_append]

/-- A separator that is found is found at the same place when more stands behind. -/
theorem breakOn?_append {sep text before after : List Char} (more : List Char)
    (h : breakOn? sep text = some (before, after)) :
    breakOn? sep (text ++ more) = some (before, after ++ more) := by
  induction text generalizing before with
  | nil =>
      rw [breakOn?] at h
      split at h
      · rename_i empty
        cases h
        obtain rfl := List.isEmpty_iff.1 empty
        cases more <;> rfl
      · cases h
  | cons c cs ih =>
      have size : sep.length ≤ (c :: cs).length := by
        rw [breakOn?_eq_some h]
        simp
        omega
      rw [breakOn?] at h
      rw [List.cons_append, breakOn?, ← List.cons_append]
      cases starts : after? sep (c :: cs) with
      | some rest =>
          rw [starts] at h
          cases h
          rw [after?_append_of_some more starts]
      | none =>
          rw [starts] at h
          obtain ⟨⟨front, back⟩, further, same⟩ := Option.map_eq_some_iff.1 h
          cases same
          rw [after?_append_of_none more size starts, ih further]
          rfl

end Text

namespace Markup

/-! ## Cursors -/

namespace Cursor

/-- The same is left to read, with more behind it. -/
def Before (more : List Char) (c d : Cursor) : Prop := d.rest = c.rest ++ more

variable {more : List Char} {c d : Cursor}

theorem Before.drop (h : c.Before more d) {n : Nat} (size : n ≤ c.rest.length) :
    (c.drop n).Before more (d.drop n) := by
  simp only [Before, Cursor.drop]
  rw [h, List.drop_append_of_le_length size]

/-- A run that ends before the text does ends there as well. -/
theorem Before.takeWhile (h : c.Before more d) {p : Char → Bool} (stops : (c.takeWhile p).2.rest ≠ []) :
    (d.takeWhile p).1 = (c.takeWhile p).1 ∧ (c.takeWhile p).2.Before more (d.takeWhile p).2 := by
  have run : c.rest.takeWhile p ++ c.rest.dropWhile p = c.rest := List.takeWhile_append_dropWhile
  have size : (c.rest.takeWhile p).length ≠ c.rest.length := by
    intro same
    refine stops (List.eq_nil_of_length_eq_zero ?_)
    have sizes := congrArg List.length run
    rw [List.length_append] at sizes
    simp only [Cursor.takeWhile]
    omega
  have filled : (c.rest.dropWhile p).isEmpty = false := by simpa [Cursor.takeWhile] using stops
  simp only [Cursor.takeWhile, Before]
  rw [h, List.takeWhile_append, if_neg size, List.dropWhile_append, filled]
  exact ⟨rfl, rfl⟩

theorem Before.skipBlanks (h : c.Before more d) (stops : c.skipBlanks.rest ≠ []) :
    c.skipBlanks.Before more d.skipBlanks := (h.takeWhile stops).2

theorem Before.breakOn? (h : c.Before more d) {sep value : List Char} {next : Cursor}
    (found : c.breakOn? sep = some (value, next)) :
    ∃ next', d.breakOn? sep = some (value, next') ∧ next.Before more next' := by
  obtain ⟨⟨front, back⟩, cut, same⟩ := Option.map_eq_some_iff.1 found
  cases same
  rw [Cursor.breakOn?, h, Text.breakOn?_append more cut]
  exact ⟨_, rfl, rfl⟩

end Cursor

variable {more : List Char} {c d : Cursor}

theorem readName_before (h : c.Before more d) (stops : (readName c).2.rest ≠ []) :
    (readName d).1 = (readName c).1 ∧ (readName c).2.Before more (readName d).2 := by
  obtain ⟨run, next⟩ := h.takeWhile (p := fun ch => !isNameEnd ch) stops
  exact ⟨congrArg Text.lowercase run, next⟩

theorem readValue_before (h : c.Before more d) (sound : (readValue c).2.1 = [])
    (stops : (readValue c).2.2.rest ≠ []) :
    (readValue d).1 = (readValue c).1 ∧ (readValue d).2.1 = [] ∧
      (readValue c).2.2.Before more (readValue d).2.2 := by
  cases rest : c.rest with
  | nil =>
      refine (stops ?_).elim
      rw [readValue, rest]
      exact rest
  | cons q cs =>
      have rest' : d.rest = q :: (cs ++ more) := by rw [h, rest, List.cons_append]
      unfold readValue at sound stops ⊢
      simp only [rest, rest'] at sound stops ⊢
      split
      · rename_i quote
        rw [if_pos quote] at sound stops
        have inside : (c.drop 1).Before more (d.drop 1) := h.drop (by simp [rest])
        cases found : (c.drop 1).breakOn? [q] with
        | none => simp [found] at sound
        | some pair =>
            obtain ⟨next', found', before⟩ := inside.breakOn? found
            simpa only [found, found', true_and] using before
      · rename_i bare
        rw [if_neg bare] at stops
        obtain ⟨run, next⟩ := h.takeWhile stops
        exact ⟨by simp only [run], rfl, next⟩

/-- What is behind the name of an attribute. -/
def behindName (c : Cursor) : Cursor := ((c.drop 1).takeWhile fun ch => !isNameEnd ch).2.skipBlanks

theorem readAttribute_eq (c : Cursor) :
    readAttribute c =
      if (behindName c).rest.head? = some '=' then
        (((readAttribute c).1.1, (readValue ((behindName c).drop 1).skipBlanks).1),
          (readValue ((behindName c).drop 1).skipBlanks).2)
      else (((readAttribute c).1.1, ""), [], behindName c) := by
  rw [readAttribute_name]
  unfold readAttribute behindName
  dsimp only
  split
  · rename_i begins
    rw [begins, List.head?_cons, if_pos rfl]
    rfl
  · rename_i other
    rw [if_neg]
    · rfl
    · intro first
      obtain ⟨cs, begins⟩ := List.head?_eq_some_iff.1 first
      exact other cs begins

theorem readAttribute_before (h : c.Before more d) (filled : c.rest ≠ [])
    (sound : (readAttribute c).2.1 = []) (stops : (readAttribute c).2.2.rest ≠ []) :
    (readAttribute d).1 = (readAttribute c).1 ∧ (readAttribute d).2.1 = [] ∧
      (readAttribute c).2.2.Before more (readAttribute d).2.2 := by
  have size : 1 ≤ c.rest.length := List.length_pos_iff.2 filled
  have inside : (c.drop 1).Before more (d.drop 1) := h.drop size
  -- something is left behind the attribute, so that its name ends before the text does
  have behind : (behindName c).rest ≠ [] := by
    intro ended
    rw [readAttribute_eq, ended, if_neg (by simp)] at stops
    exact stops ended
  have named : ((c.drop 1).takeWhile fun ch => !isNameEnd ch).2.rest ≠ [] := by
    intro ended
    refine behind ?_
    rw [behindName, Cursor.skipBlanks, Cursor.takeWhile, ended]
    rfl
  obtain ⟨run, next⟩ := inside.takeWhile named
  have blanks : (behindName c).Before more (behindName d) := next.skipBlanks behind
  have name : (readAttribute d).1.1 = (readAttribute c).1.1 := by
    have first : d.rest.take 1 = c.rest.take 1 := by rw [h, List.take_append_of_le_length size]
    have letters : (d.rest.drop 1).takeWhile _ = (c.rest.drop 1).takeWhile _ := run
    rw [readAttribute_name, readAttribute_name, first, letters]
  have head : (behindName d).rest.head? = (behindName c).rest.head? := by
    rw [blanks, List.head?_append_of_ne_nil _ behind]
  rw [readAttribute_eq c] at sound stops
  rw [readAttribute_eq d, readAttribute_eq c, head, name]
  by_cases equals : (behindName c).rest.head? = some '='
  · rw [if_pos equals] at sound stops
    rw [if_pos equals, if_pos equals]
    have value := blanks.drop (List.length_pos_iff.2 behind)
    have start : ((behindName c).drop 1).skipBlanks.rest ≠ [] := by
      intro ended
      refine stops ?_
      rw [readValue, ended]
      exact ended
    obtain ⟨same, clean, further⟩ := readValue_before (value.skipBlanks start) sound stops
    exact ⟨by rw [same], clean, further⟩
  · rw [if_neg equals, if_neg equals]
    exact ⟨rfl, rfl, blanks⟩

/-! ## Tags -/

theorem startsOpenTag_append_cons (c d : Char) (cs ds : List Char) :
    startsOpenTag (c :: d :: ds) = startsOpenTag (c :: d :: cs) := by
  unfold startsOpenTag
  split <;> split <;> simp_all

theorem readTagBody_selfClosing {name : String} {start : Nat} {rest : List Char}
    (here : c.skipBlanks.rest = '/' :: '>' :: rest) :
    readTagBody name start c = ⟨[], true, [], c.skipBlanks.drop 2⟩ := by
  rw [readTagBody]
  split <;> simp_all

theorem readTagBody_slash {name : String} {start : Nat} {rest : List Char}
    (here : c.skipBlanks.rest = '/' :: rest) (notEnd : ∀ cs, rest = '>' :: cs → False) :
    readTagBody name start c = readTagBody name start (c.skipBlanks.drop 1) := by
  rw [readTagBody]
  split <;> simp_all
  exact (notEnd _ here.symm).elim

theorem rest_ne_nil_of_readTagBody {name : String} {start : Nat}
    (sound : (readTagBody name start c).flaws = []) : c.rest ≠ [] := by
  intro ended
  have blanks : c.skipBlanks.rest = [] := by simp [Cursor.skipBlanks, Cursor.takeWhile, ended]
  rw [readTagBody] at sound
  split at sound <;> simp_all

/-- An open tag that is closed is the same tag when more stands behind. -/
theorem readTagBody_before (name : String) (start start' : Nat) (c : Cursor) :
    ∀ {d : Cursor}, c.Before more d → (readTagBody name start c).flaws = [] →
    (readTagBody name start' d).attributes = (readTagBody name start c).attributes ∧
      (readTagBody name start' d).selfClosing = (readTagBody name start c).selfClosing ∧
      (readTagBody name start' d).flaws = [] ∧
      (readTagBody name start c).next.Before more (readTagBody name start' d).next := by
  have reach {c d : Cursor} (h : c.Before more d) {ch : Char} {cs : List Char}
      (rest : c.skipBlanks.rest = ch :: cs) :
      c.skipBlanks.Before more d.skipBlanks ∧ c.skipBlanks.rest = ch :: cs ∧
        d.skipBlanks.rest = ch :: (cs ++ more) := by
    have here := h.skipBlanks (by rw [rest]; exact List.cons_ne_nil _ _)
    exact ⟨here, rest, by rw [here, rest, List.cons_append]⟩
  fun_induction readTagBody name start c with
  | case1 => exact fun _ sound => by cases sound
  | case2 c here skipped cs =>
      rename_i rest
      intro d h _
      obtain ⟨there, size, rest'⟩ := reach h rest
      rw [readTagBody_end rest']
      exact ⟨rfl, rfl, rfl, there.drop (by rw [size]; simp)⟩
  | case3 c here skipped cs =>
      rename_i rest
      intro d h _
      obtain ⟨there, size, rest'⟩ := reach h rest
      rw [readTagBody_selfClosing rest']
      exact ⟨rfl, rfl, rfl, there.drop (by rw [size]; simp)⟩
  | case4 c here skipped cs notEnd rest shorter =>
      rename_i ih
      intro d h sound
      obtain ⟨there, size, rest'⟩ := reach h rest
      have other : ∀ tail, cs ++ more = '>' :: tail → False := by
        intro tail begins
        cases cs with
        | nil => exact (rest_ne_nil_of_readTagBody sound (congrArg (List.drop 1) rest)).elim
        | cons c cs =>
            cases begins
            exact notEnd cs rfl
      rw [readTagBody_slash rest' other]
      exact ih (there.drop (by rw [size]; simp)) sound
  | case5 => exact fun _ sound => by cases sound
  | case6 c here skipped ch cs notEnd notSlashEnd notSlash rest notTag shorter body =>
      rename_i ih
      intro d h sound
      obtain ⟨there, size, rest'⟩ := reach h rest
      obtain ⟨own, others⟩ := List.append_eq_nil_iff.1 sound
      have filled := rest_ne_nil_of_readTagBody others
      obtain ⟨entry, clean, further⟩ := readAttribute_before there (by rw [size]; exact List.cons_ne_nil _ _) own filled
      have notTag' : startsOpenTag (ch :: (cs ++ more)) = false := by
        cases cs with
        | nil =>
            have fewer := readAttribute_rest_length_lt (c := here)
              (by rw [size]; exact List.cons_ne_nil _ _)
            rw [size] at fewer
            exact (filled (List.length_eq_zero_iff.1 (Nat.lt_one_iff.1 fewer))).elim
        | cons e cs =>
            rw [rest, Bool.not_eq_true] at notTag
            rwa [List.cons_append, startsOpenTag_append_cons]
      rw [readTagBody_attribute rest' notEnd notSlash notTag']
      obtain ⟨attributes, closing, flaws, next⟩ := ih further others
      exact ⟨by dsimp only; rw [entry, attributes], closing, by dsimp only; rw [clean, flaws]; rfl, next⟩

/-! ## Steps -/

/-- A step that gives the same lexemes without a flaw, with more behind what it leaves. -/
structure Step.Before (more : List Char) (s t : Step) : Prop where
  lexemes : t.tokens.map Token.lexeme = s.tokens.map Token.lexeme
  flaws : t.flaws = []
  next : s.next.Before more t.next

theorem readComment_before (h : c.Before more d) {start : Nat} (start' : Nat)
    (sound : (readComment start c).flaws = []) :
    (readComment start c).Before more (readComment start' d) := by
  unfold readComment at sound ⊢
  cases found : c.breakOn? ['-', '-', '>'] with
  | none =>
      rw [found] at sound
      cases sound
  | some pair =>
      obtain ⟨next, found', before⟩ := h.breakOn? found
      rw [found']
      exact ⟨rfl, rfl, before⟩

theorem readDoctype_before (h : c.Before more d) {start : Nat} (start' : Nat)
    (sound : (readDoctype start c).flaws = []) :
    (readDoctype start c).Before more (readDoctype start' d) := by
  unfold readDoctype at sound ⊢
  cases found : c.breakOn? ['>'] with
  | none =>
      rw [found] at sound
      cases sound
  | some pair =>
      obtain ⟨next, found', before⟩ := h.breakOn? found
      rw [found']
      exact ⟨rfl, rfl, before⟩

theorem rest_ne_nil_of_readCloseTag {start : Nat} (sound : (readCloseTag start c).flaws = []) :
    (readName c).2.skipBlanks.rest ≠ [] ∧ (readName c).2.rest ≠ [] := by
  have blanks : (readName c).2.skipBlanks.rest ≠ [] := by
    intro ended
    have missing : (readName c).2.skipBlanks.breakOn? ['>'] = none := by
      rw [Cursor.breakOn?, ended]
      rfl
    rw [readCloseTag] at sound
    dsimp only at sound
    rw [missing] at sound
    cases sound
  refine ⟨blanks, fun ended => blanks ?_⟩
  rw [Cursor.skipBlanks, Cursor.takeWhile, ended]
  rfl

theorem readCloseTag_before (h : c.Before more d) {start : Nat} (start' : Nat)
    (sound : (readCloseTag start c).flaws = []) :
    (readCloseTag start c).Before more (readCloseTag start' d) := by
  obtain ⟨blanks, named⟩ := rest_ne_nil_of_readCloseTag sound
  obtain ⟨name, behind⟩ := readName_before h named
  unfold readCloseTag at sound ⊢
  dsimp only at sound ⊢
  cases found : (readName c).2.skipBlanks.breakOn? ['>'] with
  | none =>
      rw [found] at sound
      cases sound
  | some pair =>
      obtain ⟨next, found', before⟩ := (behind.skipBlanks blanks).breakOn? found
      rw [found', name]
      exact ⟨rfl, rfl, before⟩

theorem closesElement_append {name cs : List Char} (more : List Char)
    (room : name.length + 2 < cs.length) : closesElement name (cs ++ more) = closesElement name cs := by
  rw [closesElement, closesElement, List.take_append_of_le_length (Nat.le_of_lt room),
    List.drop_append_of_le_length (Nat.le_of_lt room)]
  cases rest : cs.drop (name.length + 2) with
  | nil => exact absurd (List.drop_eq_nil_iff.1 rest) (Nat.not_le.2 room)
  | cons ch rest => rfl

/-- Content that has come to its closing tag is the same when more stands behind the tag. -/
theorem rawRun_before {name cs : List Char} (more : List Char)
    (room : name.length + 2 < (rawRun name cs).2.length) :
    rawRun name (cs ++ more) = ((rawRun name cs).1, (rawRun name cs).2 ++ more) := by
  induction cs with
  | nil => simp [rawRun] at room
  | cons ch cs ih =>
      have whole := congrArg List.length (rawRun_append name (ch :: cs))
      rw [List.length_append] at whole
      rw [List.cons_append, rawRun, ← List.cons_append, closesElement_append more (by omega)]
      rw [rawRun] at room ⊢
      split
      · rfl
      · rename_i stays
        rw [if_neg stays] at room
        rw [ih room]

theorem readRaw_before {name : List Char} (decoded : Bool) (h : c.Before more d)
    (room : name.length + 2 < (readRaw name decoded c).next.rest.length) :
    (readRaw name decoded c).Before more (readRaw name decoded d) := by
  have rest : (readRaw name decoded c).next.rest = (rawRun name c.rest).2 := by
    unfold readRaw
    dsimp only
    split <;> rfl
  have run := rawRun_before more (by rwa [rest] at room)
  unfold readRaw
  rw [h, run]
  dsimp only
  split
  · exact ⟨rfl, rfl, rfl⟩
  · exact ⟨rfl, rfl, rfl⟩

/-- There is room for a closing tag behind content that is read as it stands. -/
def Step.Roomy (s : Step) : Prop :=
  ∀ name attributes, .openTag name attributes false ∈ s.tokens.map Token.lexeme →
    (TagRules.of name).content ≠ .parsable → name.toList.length + 2 < s.next.rest.length

/-- The content behind an open tag, without the line feed that is dropped. -/
def contentOf (rules : TagRules) (next : Cursor) : Cursor :=
  match next.rest with
  | '\n' :: _ => if rules.skipsNewline then next.drop 1 else next
  | _ => next

/-- The step at an open tag whose inside has been read. -/
def openStep (start : Nat) (run : List Char) (body : TagBody) : Step :=
  let name := String.ofList run
  let token : Token := ⟨.openTag name body.attributes body.selfClosing, start, body.next.offset⟩
  if body.selfClosing || (TagRules.of name).isVoid then
    { tokens := [token], flaws := body.flaws, next := body.next }
  else
    match (TagRules.of name).content with
    | .parsable =>
        { tokens := [token], flaws := body.flaws, next := contentOf (TagRules.of name) body.next }
    | model =>
        let content := readRaw run (model == .escapable) (contentOf (TagRules.of name) body.next)
        { tokens := token :: content.tokens, flaws := body.flaws, next := content.next }

theorem readOpenTag_eq (start : Nat) (c : Cursor) :
    readOpenTag start c = openStep start (readName c).1
      (readTagBody (String.ofList (readName c).1) start (readName c).2) := rfl

theorem flaws_openStep (start : Nat) (run : List Char) (body : TagBody) :
    (openStep start run body).flaws = body.flaws := by
  unfold openStep
  dsimp only
  split
  · rfl
  · split <;> rfl

variable {post : List Char}

theorem contentOf_before (rules : TagRules) (h : c.Before ('<' :: post) d) :
    (contentOf rules c).Before ('<' :: post) (contentOf rules d) := by
  unfold contentOf
  cases rest : c.rest with
  | nil =>
      rw [show d.rest = '<' :: post by rw [h, rest, List.nil_append]]
      exact h
  | cons ch cs =>
      rw [show d.rest = ch :: (cs ++ '<' :: post) by rw [h, rest, List.cons_append]]
      by_cases feed : ch = '\n'
      · subst feed
        cases rules.skipsNewline with
        | true => exact h.drop (by rw [rest]; simp)
        | false => exact h
      · simpa [feed] using h

theorem openStep_before (start start' : Nat) (run : List Char) {body body' : TagBody}
    (attributes : body'.attributes = body.attributes) (closing : body'.selfClosing = body.selfClosing)
    (clean : body'.flaws = []) (further : body.next.Before ('<' :: post) body'.next)
    (room : (openStep start run body).Roomy) :
    (openStep start run body).Before ('<' :: post) (openStep start' run body') := by
  have within := contentOf_before (TagRules.of (String.ofList run)) further
  rw [openStep] at room ⊢
  rw [openStep, closing, attributes]
  dsimp only at room ⊢
  split
  · exact ⟨rfl, clean, further⟩
  · rename_i inside
    rw [if_neg inside] at room
    have still : body.selfClosing = false := by
      cases closing : body.selfClosing with
      | false => rfl
      | true => exact (inside (by rw [closing]; rfl)).elim
    cases model : (TagRules.of (String.ofList run)).content with
    | parsable => exact ⟨rfl, clean, within⟩
    | _ =>
        rw [model] at room
        have wide := room (String.ofList run) body.attributes (by simp [still]) (by rw [model]; nofun)
        rw [String.toList_ofList] at wide
        have content := readRaw_before _ within wide
        exact ⟨by simpa using content.lexemes, clean, content.next⟩

theorem readOpenTag_before (h : c.Before ('<' :: post) d) {start : Nat} (start' : Nat)
    (sound : (readOpenTag start c).flaws = []) (room : (readOpenTag start c).Roomy) :
    (readOpenTag start c).Before ('<' :: post) (readOpenTag start' d) := by
  rw [readOpenTag_eq] at sound room ⊢
  rw [flaws_openStep] at sound
  obtain ⟨name, behind⟩ := readName_before h (rest_ne_nil_of_readTagBody sound)
  obtain ⟨attributes, closing, clean, further⟩ :=
    readTagBody_before (String.ofList (readName c).1) start start' _ behind sound
  rw [readOpenTag_eq, name]
  exact openStep_before start start' _ attributes closing clean further room

/-- What begins in front of markup begins there without it. -/
theorem starts_before (post : List Char) {cs : List Char} (filled : cs ≠ []) :
    startsCloseTag (cs ++ '<' :: post) = startsCloseTag cs ∧
      startsOpenTag (cs ++ '<' :: post) = startsOpenTag cs ∧
      startsDeclaration (cs ++ '<' :: post) = startsDeclaration cs := by
  obtain _ | ⟨a, _ | ⟨b, _ | ⟨c, cs⟩⟩⟩ := cs
  · exact (filled rfl).elim
  · by_cases less : a = '<' <;> simp [startsCloseTag, startsOpenTag, startsDeclaration, less]
  all_goals
    by_cases less : a = '<'
    · by_cases slash : b = '/' <;> by_cases bang : b = '!' <;> by_cases ask : b = '?' <;>
        simp [startsCloseTag, startsOpenTag, startsDeclaration, less, slash, bang, ask]
    · simp [startsCloseTag, startsOpenTag, startsDeclaration, less]

theorem two_le_of_startsCloseTag {cs : List Char} (h : startsCloseTag cs = true) : 2 ≤ cs.length := by
  unfold startsCloseTag at h
  split at h
  · simp
  · cases h

theorem textRun_before (starts : startsMarkup ('<' :: post) = true) (cs : List Char) :
    textRun (cs ++ '<' :: post) = ((textRun cs).1, (textRun cs).2 ++ '<' :: post) := by
  induction cs with
  | nil =>
      rw [List.nil_append, textRun.eq_2, if_pos starts]
      rfl
  | cons c cs ih =>
      have same : startsMarkup (c :: (cs ++ '<' :: post)) = startsMarkup (c :: cs) := by
        obtain ⟨closes, opens, declares⟩ := starts_before post (List.cons_ne_nil c cs)
        rw [startsMarkup, startsMarkup, ← List.cons_append, closes, opens, declares]
      rw [List.cons_append, textRun, textRun, same, ih]
      split <;> rfl

theorem readText_before (starts : startsMarkup ('<' :: post) = true) (h : c.Before ('<' :: post) d)
    (filled : c.rest ≠ []) : (readText c).Before ('<' :: post) (readText d) := by
  have first : d.rest.take 1 = c.rest.take 1 := by
    rw [h, List.take_append_of_le_length (List.length_pos_iff.2 filled)]
  have behind : d.rest.drop 1 = c.rest.drop 1 ++ '<' :: post := by
    rw [h, List.drop_append_of_le_length (List.length_pos_iff.2 filled)]
  unfold readText
  rw [first, behind, textRun_before starts]
  exact ⟨rfl, rfl, rfl⟩

theorem readStep_other {cs : List Char} (rest : c.rest = cs) (other : startsDeclaration cs = false) :
    readStep c =
      if startsCloseTag cs then readCloseTag c.offset (c.drop 2)
      else if startsOpenTag cs then readOpenTag c.offset (c.drop 1)
      else readText c := by
  subst rest
  unfold readStep
  split
  case h_4 => rfl
  all_goals
    rename_i begins
    rw [begins] at other
    cases other

/-- A step that is read without a flaw is the same when markup stands behind all, if content that is
read as it stands has come to its end. -/
theorem readStep_before (starts : startsMarkup ('<' :: post) = true) (h : c.Before ('<' :: post) d)
    (filled : c.rest ≠ []) (sound : (readStep c).flaws = []) (room : (readStep c).Roomy) :
    (readStep c).Before ('<' :: post) (readStep d) := by
  have reach (n : Nat) (size : n ≤ c.rest.length) : (c.drop n).Before ('<' :: post) (d.drop n) :=
    h.drop size
  obtain ⟨closes, opens, declares⟩ := starts_before post filled
  obtain ⟨cs, o⟩ := c
  obtain ⟨ds, o'⟩ := d
  obtain rfl : ds = cs ++ '<' :: post := h
  cases own : startsDeclaration cs with
  | true =>
    unfold startsDeclaration at own
    split at own
    · rename_i cs
      by_cases comment : ['-', '-'] <+: cs
      · obtain ⟨cs, rfl⟩ := comment
        exact readComment_before (reach 4 (by simp)) _ sound
      · have still : ¬['-', '-'] <+: cs ++ '<' :: post := by
          rintro ⟨tail, same⟩
          obtain _ | ⟨a, _ | ⟨b, cs⟩⟩ := cs
          · cases same
          · cases same
          · cases same
            exact comment ⟨cs, rfl⟩
        rw [readStep_doctype o comment] at sound ⊢
        rw [List.cons_append, List.cons_append, readStep_doctype o' still]
        exact readDoctype_before (show Cursor.Before _ ⟨cs, _⟩ ⟨cs ++ '<' :: post, _⟩ from rfl) _ sound
    · exact readDoctype_before (reach 2 (by simp)) _ sound
    · cases own
  | false =>
      rw [readStep_other rfl own] at sound room ⊢
      rw [readStep_other rfl (declares.trans own)]
      dsimp only at sound room ⊢
      rw [closes, opens]
      split
      · rename_i closing
        rw [if_pos closing] at sound
        exact readCloseTag_before (reach 2 (two_le_of_startsCloseTag closing)) _ sound
      · rename_i notClosing
        rw [if_neg notClosing] at sound room
        split
        · rename_i opening
          rw [if_pos opening] at sound room
          exact readOpenTag_before (reach 1 (List.length_pos_iff.2 filled)) _ sound room
        · exact readText_before starts rfl filled

/-! ## Texts -/

/-- No element whose content is read as it stands is open at the end. -/
def Sealed (ls : List Lexeme) : Prop :=
  ∀ name attributes text, (TagRules.of name).content ≠ .parsable →
    (text = [] ∨ ∃ value, text = [.text value]) → ¬.openTag name attributes false :: text <:+ ls

theorem Sealed.of_append {ls more : List Lexeme} (h : Sealed (ls ++ more)) : Sealed more :=
  fun name attributes text model held ends =>
    h name attributes text model held (ends.trans (List.suffix_append ls more))

/-- A closing tag without a flaw is longer than its name. -/
theorem room_of_closesElement {name : String} (plain : PlainName name.toList) {c : Cursor}
    (closes : closesElement name.toList c.rest = true) (sound : (readAll c).2 = []) :
    name.toList.length + 2 < c.rest.length := by
  obtain ⟨run, rest, begins, named, stops⟩ := exists_of_closesElement closes
  have own : PlainName (Text.lowercase run) := named ▸ plain
  have size : run.length = name.toList.length := by rw [← named, Text.lowercase, List.length_map]
  obtain ⟨letter, run', rfl, alpha⟩ : ∃ letter run', run = letter :: run' ∧ letter.isAlpha = true := by
    obtain ⟨d, more, same, small⟩ := own.first
    obtain ⟨letter, run', rfl, lowered, -⟩ := List.map_eq_cons_iff.1 same
    exact ⟨letter, run', rfl, isAlpha_of_toLower (by rw [lowered]; exact small)⟩
  obtain ⟨cs, offset⟩ := c
  obtain rfl : cs = _ := begins
  have rest_filled : rest ≠ [] := by
    rintro rfl
    rw [readAll, dif_neg (by simp)] at sound
    have step := (List.append_eq_nil_iff.1 sound).1
    rw [List.cons_append, readStep_closing offset alpha, ← List.cons_append] at step
    refine (rest_ne_nil_of_readCloseTag step).2 ?_
    have inside : ∀ c ∈ letter :: run', (!isNameEnd c) = true := fun c mem => by
      rw [not_isNameEnd_of_toLower (own.inner _ (List.mem_map_of_mem mem))]
      rfl
    obtain ⟨o, taken⟩ := Cursor.takeWhile_append (letter :: run') []
      (offset + Text.byteLength ['<', '/']) inside (by simp)
    rw [readName, taken]
  have filled := List.length_pos_iff.2 rest_filled
  simp only [List.length_cons, List.length_append] at size ⊢
  omega

/-- Where the text ends without a flaw and no content is open, each step leaves room for what has to
be closed. -/
theorem room_of_gives {ls : List Lexeme} {next : Cursor} (gives : Gives ls next)
    (sound : (readAll next).2 = []) (ended : Sealed (ls ++ (readAll next).1.map Token.lexeme))
    {name : String} {attributes : List (String × String)} (mem : .openTag name attributes false ∈ ls)
    (model : (TagRules.of name).content ≠ .parsable) :
    name.toList.length + 2 < next.rest.length := by
  cases gives with
  | comment | doctype | text | closeTag => simp at mem
  | openTag alone =>
      cases List.mem_singleton.1 mem
      exact (model (alone.resolve_left Bool.false_ne_true)).elim
  | content plain held ends =>
      have own := List.mem_cons.1 mem
      have same := own.resolve_right fun inside => by
        rcases held with rfl | ⟨value, rfl, -⟩ <;> simp at inside
      cases same
      rcases ends with finished | closes
      · rw [readAll, dif_pos finished, List.map_nil, List.append_nil] at ended
        refine (ended _ _ _ model (held.imp_right (Exists.imp fun _ => And.left))
          List.suffix_rfl).elim
      · exact room_of_closesElement plain closes sound

/-- A text that is read without a flaw, with no content open at its end, is read as the same lexemes
in front of more markup. -/
theorem reads_before (starts : startsMarkup ('<' :: post) = true) (c : Cursor) :
    ∀ {d : Cursor}, c.Before ('<' :: post) d → (readAll c).2 = [] →
      Sealed ((readAll c).1.map Token.lexeme) →
      ∃ o, Reads d ((readAll c).1.map Token.lexeme) ⟨'<' :: post, o⟩ := by
  fun_induction readAll c with
  | case1 c ended =>
      intro d h _ _
      refine ⟨d.offset, ?_⟩
      have same : d = ⟨'<' :: post, d.offset⟩ := by
        rw [← show d.rest = '<' :: post by rw [h, ended, List.nil_append]]
      exact same ▸ reads_nil d
  | case2 c filled shorter tokens flaws rest ih =>
      intro d h sound ended
      rw [List.map_append] at ended ⊢
      obtain ⟨own, others⟩ := List.append_eq_nil_iff.1 sound
      -- Only at content is the next tag needed: without it the content would go on in `post`.
      have room : (readStep c).Roomy := fun name attributes mem model =>
        room_of_gives (gives_readStep filled) (by rw [rest, others]) (by rwa [rest]) mem model
      have step := readStep_before starts h filled own room
      rw [rest] at ih
      obtain ⟨o, further⟩ := ih step.next others ended.of_append
      have some_rest : d.rest ≠ [] := by
        rw [h]
        simp
      have first := reads_step some_rest rfl step.flaws
      rw [step.lexemes] at first
      exact ⟨o, first.trans further⟩

theorem lexes_before (starts : startsMarkup ('<' :: post) = true) {text : List Char} {offset : Nat}
    (sound : (readAll ⟨text, offset⟩).2 = [])
    (ended : Sealed ((readAll ⟨text, offset⟩).1.map Token.lexeme)) :
    Lexes text ('<' :: post) ((readAll ⟨text, offset⟩).1.map Token.lexeme) := fun _ =>
  reads_before starts ⟨text, offset⟩ rfl sound ended

end Markup

end Stencil
