import Stencil.Proofs.Markup.Reading

/-! # Lexing what was written

A written piece of markup lexes to its lexemes wherever it stands, and pieces that stand
one behind the other lex one after the other.
-/

namespace Stencil.Markup

/-! ## Steps -/

/-- Reading from one cursor gives lexemes without a flaw, and goes on at another. -/
def Reads (c : Cursor) (lexemes : List Lexeme) (next : Cursor) : Prop :=
  ∃ tokens, tokens.map Token.lexeme = lexemes ∧
    readAll c = (tokens ++ (readAll next).1, (readAll next).2)

theorem reads_nil (c : Cursor) : Reads c [] c := ⟨[], rfl, rfl⟩

theorem Reads.trans {a b c : Cursor} {ls ms : List Lexeme} (h : Reads a ls b) (k : Reads b ms c) :
    Reads a (ls ++ ms) c := by
  obtain ⟨ts, rfl, first⟩ := h
  obtain ⟨us, rfl, second⟩ := k
  exact ⟨ts ++ us, by simp, by rw [first, second, List.append_assoc]⟩

theorem reads_step {c : Cursor} (some_rest : c.rest ≠ []) {step : Step} (h : readStep c = step)
    (sound : step.flaws = []) : Reads c (step.tokens.map Token.lexeme) step.next := by
  subst h
  refine ⟨_, rfl, ?_⟩
  rw [readAll, dif_neg some_rest, sound]
  rfl

/-- A text lexes to lexemes when `rest` stands behind it. -/
def Lexes (text rest : List Char) (lexemes : List Lexeme) : Prop :=
  ∀ offset, ∃ o, Reads ⟨text ++ rest, offset⟩ lexemes ⟨rest, o⟩

theorem lexes_nil (rest : List Char) : Lexes [] rest [] := fun offset => ⟨offset, reads_nil _⟩

theorem Lexes.append {as bs rest : List Char} {ls ms : List Lexeme} (h : Lexes as (bs ++ rest) ls)
    (k : Lexes bs rest ms) : Lexes (as ++ bs) rest (ls ++ ms) := by
  intro offset
  obtain ⟨o₁, first⟩ := h offset
  obtain ⟨o₂, second⟩ := k o₁
  exact ⟨o₂, by rw [List.append_assoc]; exact first.trans second⟩

/-! ## Comments, doctypes and closing tags -/

theorem lexes_comment {value : String} (out : ¬['-', '-', '>'] <:+: value.toList) (rest : List Char) :
    Lexes ('<' :: '!' :: '-' :: '-' :: (value.toList ++ ['-', '-', '>'])) rest [.comment value] := by
  intro offset
  obtain ⟨o, found⟩ := Cursor.breakOn?_eq (offset + Text.byteLength ['<', '!', '-', '-'])
    (Text.breakOn?_comment rest out)
  refine ⟨o, ?_⟩
  have step : readStep ⟨'<' :: '!' :: '-' :: '-' :: (value.toList ++ ['-', '-', '>']) ++ rest, offset⟩ =
      ⟨[⟨.comment value, offset, o⟩], [], ⟨rest, o⟩⟩ := by
    have whole : value.toList ++ ['-', '-', '>'] ++ rest = value.toList ++ '-' :: '-' :: '>' :: rest := by
      simp
    simp only [List.cons_append, whole, readStep]
    simp only [Cursor.drop, readComment, List.drop_succ_cons, List.drop_zero, List.take_succ_cons,
      List.take_zero, found, String.ofList_toList]
  exact reads_step (by simp) step rfl

theorem readStep_doctype {cs : List Char} (offset : Nat) (notComment : ¬['-', '-'] <+: cs) :
    readStep ⟨'<' :: '!' :: cs, offset⟩ =
      readDoctype offset ⟨cs, offset + Text.byteLength ['<', '!']⟩ := by
  unfold readStep
  split
  · rename_i tail begins
    obtain rfl := (List.cons.inj (List.cons.inj begins).2).2
    exact (notComment ⟨tail, rfl⟩).elim
  · rfl
  · rename_i begins
    cases (List.cons.inj (List.cons.inj begins).2).1
  · rename_i other _
    exact (other _ rfl).elim

theorem lexes_doctype {value : String} (out : '>' ∉ value.toList)
    (notComment : ¬['-', '-'] <+: value.toList) (rest : List Char) :
    Lexes ('<' :: '!' :: (value.toList ++ ['>'])) rest [.doctype value] := by
  intro offset
  obtain ⟨o, found⟩ := Cursor.breakOn?_eq (offset + Text.byteLength ['<', '!'])
    (Text.breakOn?_single rest out)
  refine ⟨o, ?_⟩
  have still : ¬['-', '-'] <+: value.toList ++ '>' :: rest := by
    rintro ⟨tail, begins⟩
    match same : value.toList, begins with
    | [], begins => cases begins
    | [c], begins => cases begins
    | c :: d :: cs, begins =>
        cases begins
        exact notComment ⟨cs, by rw [same]; rfl⟩
  have step : readStep ⟨'<' :: '!' :: (value.toList ++ ['>']) ++ rest, offset⟩ =
      ⟨[⟨.doctype value, offset, o⟩], [], ⟨rest, o⟩⟩ := by
    have whole : value.toList ++ ['>'] ++ rest = value.toList ++ '>' :: rest := by simp
    rw [List.cons_append, List.cons_append, whole, readStep_doctype offset still]
    simp only [readDoctype, found, String.ofList_toList]
  exact reads_step (by simp) step rfl

theorem readStep_closing {c : Char} {cs : List Char} (offset : Nat) (letter : c.isAlpha = true) :
    readStep ⟨'<' :: '/' :: c :: cs, offset⟩ =
      readCloseTag offset ⟨c :: cs, offset + Text.byteLength ['<', '/']⟩ := by
  have starts : startsCloseTag ('<' :: '/' :: c :: cs) = true := letter
  show (if startsCloseTag _ = true then _ else _) = _
  rw [if_pos starts]
  rfl

theorem lexes_closing {name : String} (plain : PlainName name.toList) (rest : List Char) :
    Lexes (writtenClosing name.toList) rest [.closeTag name] := by
  intro offset
  obtain ⟨c, cs, same, letter⟩ := plain.isAlpha
  obtain ⟨o₁, named⟩ := readName_plain plain ('>' :: rest)
    (offset + Text.byteLength ['<', '/']) (by rintro _ _ ⟨⟩; rfl)
  have first : Text.breakOn? ['>'] ('>' :: rest) = some ([], rest) :=
    Text.breakOn?_single rest (List.not_mem_nil)
  obtain ⟨o, found⟩ := Cursor.breakOn?_eq o₁ first
  refine ⟨o, ?_⟩
  have whole : writtenClosing name.toList ++ rest = '<' :: '/' :: (name.toList ++ '>' :: rest) := by
    simp [writtenClosing]
  have step : readStep ⟨writtenClosing name.toList ++ rest, offset⟩ =
      ⟨[⟨.closeTag name, offset, o⟩], [], ⟨rest, o⟩⟩ := by
    have open' : name.toList ++ '>' :: rest = c :: (cs ++ '>' :: rest) := by
      rw [same, List.cons_append]
    rw [whole, open', readStep_closing offset letter, ← open']
    simp only [readCloseTag, named, String.ofList_toList]
    rw [Cursor.skipBlanks_of_not _ (by rintro _ _ ⟨⟩; rfl)]
    rw [found]
  exact reads_step (by simp [whole]) step rfl

/-! ## Texts -/

/-- Whether a text ends here: the end of all, or markup. -/
def Ends (rest : List Char) : Prop := rest = [] ∨ startsMarkup rest = true

theorem startsMarkup_of_ne {c : Char} {cs : List Char} (other : c ≠ '<') :
    startsMarkup (c :: cs) = false := by
  simp [startsMarkup, startsOpenTag, startsCloseTag, startsDeclaration, other]

theorem textRun_of_not_mem {run rest : List Char} (out : '<' ∉ run) (ended : Ends rest) :
    textRun (run ++ rest) = (run, rest) := by
  induction run with
  | nil =>
      cases rest with
      | nil => rfl
      | cons c cs =>
          have starts : startsMarkup (c :: cs) = true := by simpa [Ends] using ended
          simp [textRun, starts]
  | cons c run ih =>
      have other : c ≠ '<' := by
        rintro rfl
        simp at out
      have further := ih fun mem => out (List.mem_cons_of_mem c mem)
      rw [List.cons_append, textRun, startsMarkup_of_ne other, further]
      rfl

theorem readStep_text {c : Char} {cs : List Char} (offset : Nat) (other : c ≠ '<') :
    readStep ⟨c :: cs, offset⟩ = readText ⟨c :: cs, offset⟩ := by
  unfold readStep
  simp [startsCloseTag, startsOpenTag, other]

/-- A run without the beginning of a tag is one text, with its references decoded. -/
theorem lexes_run {run rest : List Char} (some_run : run ≠ []) (out : '<' ∉ run) (ended : Ends rest) :
    Lexes run rest [.text (String.ofList (decode run))] := by
  intro offset
  cases run with
  | nil => exact (some_run rfl).elim
  | cons c cs =>
      have other : c ≠ '<' := by
        rintro rfl
        simp at out
      have further := textRun_of_not_mem (fun mem => out (List.mem_cons_of_mem c mem)) ended
      refine ⟨offset + Text.byteLength (c :: cs), ?_⟩
      have step : readStep ⟨c :: cs ++ rest, offset⟩ =
          ⟨[⟨.text (String.ofList (decode (c :: cs))), offset, offset + Text.byteLength (c :: cs)⟩], [],
            ⟨rest, offset + Text.byteLength (c :: cs)⟩⟩ := by
        rw [List.cons_append, readStep_text offset other]
        simp only [readText, List.drop_succ_cons, List.drop_zero, List.take_succ_cons,
          List.take_zero, further, List.cons_append, List.nil_append]
      exact reads_step (by simp) step rfl

theorem lexes_text {value : String} (some_text : value ≠ "") {rest : List Char} (ended : Ends rest) :
    Lexes (value.toList.flatMap escapedTextChar) rest [.text value] := by
  have back := decode_escapedText value.toList
  have some_written : value.toList.flatMap escapedTextChar ≠ [] := by
    intro nothing
    rw [nothing, decode_nil] at back
    exact some_text (String.toList_inj.1 back.symm)
  have lexed := lexes_run some_written (not_mem_escapedText value.toList) ended
  rwa [back, String.ofList_toList] at lexed

/-! ## Open tags -/

theorem readStep_opening {c : Char} {cs : List Char} (offset : Nat) (letter : c.isLower = true) :
    readStep ⟨'<' :: c :: cs, offset⟩ =
      readOpenTag offset ⟨c :: cs, offset + Text.byteLength ['<']⟩ := by
  have alpha : c.isAlpha = true := Bool.or_eq_true_iff.2 (.inr letter)
  have starts : startsOpenTag ('<' :: c :: cs) = true := alpha
  have notClosing : startsCloseTag ('<' :: c :: cs) = false := by
    unfold startsCloseTag
    split
    · rename_i same
      cases same
      cases letter
    · rfl
  unfold readStep
  split
  · rename_i same
    cases same
    cases letter
  · rename_i same
    cases same
    cases letter
  · rename_i same
    cases same
    cases letter
  · rw [if_neg (by simp [notClosing]), if_pos starts]
    rfl

/-- An open tag, with `spell` for what is written behind the names of attributes. -/
def writtenOpening (spell : String × String → List Char) (name : List Char)
    (entries : List (String × String)) : List Char :=
  '<' :: (name ++ (entries.flatMap (writtenAttribute spell) ++ ['>']))

theorem readName_written (spell : String × String → List Char) {name : List Char}
    (plain : PlainName name) (entries : List (String × String)) (rest : List Char) (offset : Nat) :
    ∃ o, readName ⟨name ++ (entries.flatMap (writtenAttribute spell) ++ '>' :: rest), offset⟩ =
      (name, ⟨entries.flatMap (writtenAttribute spell) ++ '>' :: rest, o⟩) := by
  refine readName_plain plain _ offset fun c cs begins => ?_
  cases entries with
  | nil =>
      cases begins
      rfl
  | cons entry entries =>
      rw [List.flatMap_cons, writtenAttribute] at begins
      cases begins
      rfl

/-- No line feed that would be dropped follows an open tag with these rules. -/
def KeepsNewline (rules : TagRules) (rest : List Char) : Prop :=
  rules.skipsNewline = true → ∀ cs, rest ≠ '\n' :: cs

/-- The attributes of a tag are read back wherever the tag ends behind them. -/
def ReadsBack (spell : String × String → List Char) (entries : List (String × String)) : Prop :=
  ∀ name start rest offset, ∃ o,
    readTagBody name start ⟨entries.flatMap (writtenAttribute spell) ++ '>' :: rest, offset⟩ =
      ⟨entries, false, [], ⟨rest, o⟩⟩

theorem readsBack_of_legible {spell : String × String → List Char} (legible : Legible spell)
    {entries : List (String × String)} (plains : ∀ entry ∈ entries, PlainName entry.1.toList) :
    ReadsBack spell entries := fun name start rest offset =>
  readTagBody_written legible name start rest entries offset plains

section

variable {spell : String × String → List Char} {name : String} {entries : List (String × String)}

/-- The step at an open tag: the tag alone, or the tag with content that is read as it
stands. -/
theorem readStep_written (reads : ReadsBack spell entries) (plain : PlainName name.toList)
    (rest : List Char) (offset : Nat) :
    ∃ o, ∃ token : Token, token.lexeme = .openTag name entries false ∧
      ((TagRules.of name).isVoid = true ∨
          (TagRules.of name).content = .parsable ∧ KeepsNewline (TagRules.of name) rest →
        readStep ⟨writtenOpening spell name.toList entries ++ rest, offset⟩ =
          ⟨[token], [], ⟨rest, o⟩⟩) ∧
      ((TagRules.of name).isVoid = false → (TagRules.of name).content ≠ .parsable →
        KeepsNewline (TagRules.of name) rest → ∀ content,
        readRaw name.toList ((TagRules.of name).content == .escapable) ⟨rest, o⟩ = content →
        readStep ⟨writtenOpening spell name.toList entries ++ rest, offset⟩ =
          ⟨token :: content.tokens, [], content.next⟩) := by
  obtain ⟨c, cs, same, letter⟩ := plain.first
  obtain ⟨o₁, named⟩ := readName_written spell plain entries rest (offset + Text.byteLength ['<'])
  obtain ⟨o, body⟩ := reads name offset rest o₁
  have whole : writtenOpening spell name.toList entries ++ rest =
      '<' :: (name.toList ++ (entries.flatMap (writtenAttribute spell) ++ '>' :: rest)) := by
    simp [writtenOpening]
  have begins : name.toList ++ (entries.flatMap (writtenAttribute spell) ++ '>' :: rest) =
      c :: (cs ++ (entries.flatMap (writtenAttribute spell) ++ '>' :: rest)) := by
    rw [same, List.cons_append]
  have step : readStep ⟨writtenOpening spell name.toList entries ++ rest, offset⟩ =
      readOpenTag offset ⟨name.toList ++ (entries.flatMap (writtenAttribute spell) ++ '>' :: rest),
        offset + Text.byteLength ['<']⟩ := by
    rw [whole, begins]
    exact readStep_opening offset letter
  refine ⟨o, ⟨.openTag name entries false, offset, o⟩, rfl, fun alone => ?_, ?_⟩
  · rw [step]
    simp only [readOpenTag, named, String.ofList_toList, body, Bool.false_or]
    cases void : (TagRules.of name).isVoid with
    | true => rfl
    | false =>
        obtain ⟨model, keeps⟩ := alone.resolve_left (by simp [void])
        rw [if_neg (by simp), model]
        dsimp only
        split
        · rename_i tail
          rw [if_neg fun skips => keeps skips tail rfl]
        · rfl
  · intro notVoid model keeps content run
    rw [step, ← run]
    simp only [readOpenTag, named, String.ofList_toList, body, Bool.false_or, notVoid]
    rw [if_neg (by simp)]
    cases kind : (TagRules.of name).content with
    | parsable => exact (model kind).elim
    | _ =>
        split
        · rename_i tail
          rw [if_neg fun skips => keeps skips tail rfl]
        · rfl

theorem lexes_opening (reads : ReadsBack spell entries) (plain : PlainName name.toList)
    (rest : List Char) (h : (TagRules.of name).isVoid = true ∨
      (TagRules.of name).content = .parsable ∧ KeepsNewline (TagRules.of name) rest) :
    Lexes (writtenOpening spell name.toList entries) rest [.openTag name entries false] := by
  intro offset
  obtain ⟨o, token, lexeme, step, -⟩ := readStep_written reads plain rest offset
  have some_rest : writtenOpening spell name.toList entries ++ rest ≠ [] := by simp [writtenOpening]
  rw [← lexeme]
  exact ⟨o, reads_step some_rest (step h) rfl⟩

/-- The lexemes of content that is read as it stands, `value` being what it reads as. -/
def contentLexemes (value : List Char) : List Lexeme :=
  if value = [] then [] else [.text (String.ofList value)]

theorem readRaw_written (plain : PlainName name.toList) {written : List Char}
    (free : NoClosing name.toList written) (rest : List Char) (offset : Nat) (decoded : Bool)
    (value : List Char) (reads : (if decoded then decode written else written) = value)
    (empty : written = [] ↔ value = []) :
    ∃ tokens : List Token, tokens.map Token.lexeme = contentLexemes value ∧
      readRaw name.toList decoded ⟨written ++ (writtenClosing name.toList ++ rest), offset⟩ =
        ⟨tokens, [], ⟨writtenClosing name.toList ++ rest, offset + Text.byteLength written⟩⟩ := by
  have run := rawRun_written plain free rest
  by_cases nothing : written = []
  · refine ⟨[], by simp [contentLexemes, empty.1 nothing], ?_⟩
    subst nothing
    simp only [readRaw, run, List.isEmpty_nil, if_true]
  · have some_value : value ≠ [] := fun h => nothing (empty.2 h)
    refine ⟨[⟨.text (String.ofList value), offset, offset + Text.byteLength written⟩],
      by simp [contentLexemes, some_value], ?_⟩
    have some_written : written.isEmpty = false := by simpa using nothing
    simp only [readRaw, run, some_written, reads]
    rfl

theorem lexes_content (reads : ReadsBack spell entries) (plain : PlainName name.toList)
    (notVoid : (TagRules.of name).isVoid = false) {written value : List Char}
    (model : (TagRules.of name).content = .raw ∧ written = value ∨
      (TagRules.of name).content = .escapable ∧ written = value.flatMap escapedTextChar)
    (free : NoClosing name.toList written) (rest : List Char)
    (keeps : KeepsNewline (TagRules.of name) (written ++ (writtenClosing name.toList ++ rest))) :
    Lexes (writtenOpening spell name.toList entries ++ written) (writtenClosing name.toList ++ rest)
      (.openTag name entries false :: contentLexemes value) := by
  intro offset
  obtain ⟨o, token, lexeme, -, step⟩ :=
    readStep_written reads plain (written ++ (writtenClosing name.toList ++ rest)) offset
  have some_rest : writtenOpening spell name.toList entries ++
      (written ++ (writtenClosing name.toList ++ rest)) ≠ [] := by simp [writtenOpening]
  rw [← lexeme, List.append_assoc]
  refine ⟨o + Text.byteLength written, ?_⟩
  rcases model with ⟨raw, rfl⟩ | ⟨escapable, rfl⟩
  · obtain ⟨tokens, lexemes, content⟩ := readRaw_written plain free rest o false written rfl Iff.rfl
    have plainly : (ContentModel.raw == ContentModel.escapable) = false := rfl
    rw [raw, plainly] at step
    rw [← lexemes]
    exact reads_step some_rest (step notVoid nofun keeps _ content) rfl
  · have decodes : decode (value.flatMap escapedTextChar) = value := decode_escapedText value
    have empty : value.flatMap escapedTextChar = [] ↔ value = [] :=
      ⟨fun nothing => by rw [← decodes, nothing, decode_nil], fun nothing => by rw [nothing]; rfl⟩
    obtain ⟨tokens, lexemes, content⟩ := readRaw_written plain free rest o true value decodes empty
    have decoded : (ContentModel.escapable == ContentModel.escapable) = true := rfl
    rw [escapable, decoded] at step
    rw [← lexemes]
    exact reads_step some_rest (step notVoid nofun keeps _ content) rfl

end

end Stencil.Markup
