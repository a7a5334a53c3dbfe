import Stencil.Proofs.Markup.Element

/-! # Lexemes of a text

What one step of reading can give, and so what stands in the lexemes of any text: no comment holds
its own end, no text is empty, and behind the open tag of an element whose content is read as it
stands there is its text, if any, and its end.
-/

namespace Stencil.Markup

theorem decode_ne_nil {cs : List Char} (h : cs ≠ []) : decode cs ≠ [] := by
  cases cs with
  | nil => exact (h rfl).elim
  | cons c cs =>
      rw [decode]
      split
      · split <;> exact List.cons_ne_nil _ _
      · exact List.cons_ne_nil _ _

/-! ## Content that is read as it stands -/

/-- A character with a small form that is no letter is that form. -/
theorem eq_of_toLower {c d : Char} (h : c.toLower = d) (other : d.isLower = false) : c = d := by
  rcases toLower_eq_or c with ⟨same, -⟩ | small
  · rw [← same, h]
  · rw [h, other] at small
    cases small

/-- The closing tag of an element, letters of either case. -/
theorem exists_of_closesElement {name cs : List Char} (h : closesElement name cs = true) :
    ∃ run rest, cs = '<' :: '/' :: (run ++ rest) ∧ Text.lowercase run = name ∧
      ∀ c more, rest = c :: more → isNameEnd c = true := by
  obtain ⟨tag, ended⟩ := Bool.and_eq_true_iff.1 h
  rw [beq_iff_eq] at tag
  obtain ⟨less, cs', begins, first, tag⟩ := List.map_eq_cons_iff.1 tag
  obtain ⟨slash, run, rfl, second, named⟩ := List.map_eq_cons_iff.1 tag
  obtain rfl := eq_of_toLower first rfl
  obtain rfl := eq_of_toLower second rfl
  refine ⟨run, cs.drop (name.length + 2), ?_, named, fun c more same => ?_⟩
  · rw [← List.cons_append, ← List.cons_append, ← begins, List.take_append_drop]
  · rw [same] at ended
    exact ended

theorem closesElement_rawRun (name : List Char) (cs : List Char) :
    (rawRun name cs).2 = [] ∨ closesElement name (rawRun name cs).2 = true := by
  induction cs with
  | nil => exact .inl rfl
  | cons c cs ih =>
      rw [rawRun]
      split
      · rename_i closes
        exact .inr closes
      · exact ih

/-- No closing tag begins inside the content. -/
theorem not_closesElement_rawRun {name cs front back : List Char}
    (h : (rawRun name cs).1 = front ++ back) (some_back : back ≠ []) :
    closesElement name (back ++ (rawRun name cs).2) = false := by
  induction cs generalizing front with
  | nil => exact (some_back (List.append_eq_nil_iff.1 h.symm).2).elim
  | cons c cs ih =>
      rw [rawRun] at h ⊢
      split at h
      · exact (some_back (List.append_eq_nil_iff.1 h.symm).2).elim
      · rename_i stays
        rw [if_neg stays]
        dsimp only at h ⊢
        cases front with
        | nil =>
            rw [← show _ = back from h, List.cons_append, rawRun_append]
            simpa using stays
        | cons d front => exact ih (List.cons.inj h).2

/-- What is read as it stands has no closing tag in it, not even with what follows. -/
theorem noClosing_rawRun (name cs : List Char) : NoClosing name (rawRun name cs).1 := by
  intro front middle back whole closing
  have size : middle.length = name.length + 2 := by
    have sizes := congrArg List.length closing
    simpa [Text.lowercase] using sizes
  have cut : (rawRun name cs).1 = front ++ (middle ++ back) := by rw [whole, List.append_assoc]
  have some_middle : middle ++ back ≠ [] := fun nothing => by
    rw [(List.append_eq_nil_iff.1 nothing).1] at size
    cases size
  have stays := not_closesElement_rawRun cut some_middle
  have tag : (middle ++ back ++ (rawRun name cs).2).take (name.length + 2) = middle := by
    rw [List.append_assoc, List.take_append_of_le_length (Nat.le_of_eq size.symm), ← size,
      List.take_length]
  have behind : (middle ++ back ++ (rawRun name cs).2).drop (name.length + 2) =
      back ++ (rawRun name cs).2 := by
    rw [List.append_assoc, ← size, List.drop_left]
  rw [closesElement, tag, behind, closing, beq_self_eq_true, Bool.true_and] at stays
  cases back with
  | cons c back => exact ⟨c, back, rfl, stays⟩
  | nil =>
      rcases closesElement_rawRun name cs with ended | closes
      · rw [ended] at stays
        cases stays
      · obtain ⟨run, rest, same, -⟩ := exists_of_closesElement closes
        rw [same] at stays
        cases stays

/-! ## Steps of reading -/

theorem parsable_of_isVoid {tag : String} (void : (TagRules.of tag).isVoid = true) :
    (TagRules.of tag).content = .parsable :=
  TagRules.of_induct (P := fun _ rules => rules.isVoid = true → rules.content = .parsable)
    (by decide) (fun _ => nofun) tag void

/-- What a step of reading can give, and where it ends. -/
inductive Gives : List Lexeme → Cursor → Prop where
  | comment {value : String} {next : Cursor} (out : ¬['-', '-', '>'] <:+: value.toList) :
      Gives [.comment value] next
  | doctype {value : String} {next : Cursor} (out : '>' ∉ value.toList) : Gives [.doctype value] next
  | text {value : String} {next : Cursor} (some_text : value ≠ "") : Gives [.text value] next
  | closeTag (name : String) (next : Cursor) : Gives [.closeTag name] next
  | openTag {name : String} {attributes : List (String × String)} {selfClosing : Bool} {next : Cursor}
      (alone : selfClosing = true ∨ (TagRules.of name).content = .parsable) :
      Gives [.openTag name attributes selfClosing] next
  /-- The content is read up to the closing tag or to the end of the text. -/
  | content {name : String} {attributes : List (String × String)} {text : List Lexeme} {next : Cursor}
      (plain : PlainName name.toList)
      (held : text = [] ∨ ∃ value, text = [.text value] ∧ value ≠ "" ∧
        ((TagRules.of name).content = .raw → NoClosing name.toList value.toList))
      (ends : next.rest = [] ∨ closesElement name.toList next.rest = true) :
      Gives (.openTag name attributes false :: text) next

theorem gives_readDoctype (start : Nat) (c : Cursor) :
    Gives ((readDoctype start c).tokens.map Token.lexeme) (readDoctype start c).next := by
  have alone (value : List Char) (out : ¬['>'] <:+: value) : '>' ∉ (String.ofList value).toList := by
    rw [String.toList_ofList]
    intro mem
    obtain ⟨front, back, rfl⟩ := List.append_of_mem mem
    exact out ⟨front, back, by simp⟩
  unfold readDoctype
  split
  · rename_i value next found
    obtain ⟨⟨front, back⟩, cut, same⟩ := Option.map_eq_some_iff.1 found
    cases same
    exact .doctype (alone _ (Text.not_infix_before (by simp) cut))
  · rename_i missing
    exact .doctype (alone _ (Text.not_infix_of_breakOn? (Option.map_eq_none_iff.1 missing)))

theorem gives_readComment (start : Nat) (c : Cursor) :
    Gives ((readComment start c).tokens.map Token.lexeme) (readComment start c).next := by
  unfold readComment
  split
  · rename_i value next found
    obtain ⟨⟨front, back⟩, cut, same⟩ := Option.map_eq_some_iff.1 found
    cases same
    refine .comment ?_
    rw [String.toList_ofList]
    exact Text.not_infix_before (by simp) cut
  · rename_i missing
    refine .comment ?_
    rw [String.toList_ofList]
    exact Text.not_infix_of_breakOn? (Option.map_eq_none_iff.1 missing)

theorem gives_readCloseTag (start : Nat) (c : Cursor) :
    Gives ((readCloseTag start c).tokens.map Token.lexeme) (readCloseTag start c).next := by
  unfold readCloseTag
  dsimp only
  split <;> exact .closeTag _ _

theorem gives_readRaw {name : List Char} (plain : PlainName name)
    (attributes : List (String × String)) {decoded : Bool}
    (raw : (TagRules.of (String.ofList name)).content = .raw → decoded = false) (c : Cursor) :
    Gives (.openTag (String.ofList name) attributes false ::
        (readRaw name decoded c).tokens.map Token.lexeme) (readRaw name decoded c).next := by
  have tag : PlainName (String.ofList name).toList := by rwa [String.toList_ofList]
  have free := noClosing_rawRun name c.rest
  have ends : (rawRun name c.rest).2 = [] ∨
      closesElement (String.ofList name).toList (rawRun name c.rest).2 = true := by
    rw [String.toList_ofList]
    exact closesElement_rawRun name c.rest
  unfold readRaw
  dsimp only
  split
  · exact .content tag (.inl rfl) ends
  · rename_i some_run
    rw [List.isEmpty_iff] at some_run
    refine .content tag (.inr ⟨_, rfl, fun nothing => ?_, fun model => ?_⟩) ends
    · have empty := congrArg String.toList nothing
      rw [String.toList_ofList] at empty
      cases decoded with
      | true => exact decode_ne_nil some_run empty
      | false => exact some_run empty
    · rw [raw model, String.toList_ofList, String.toList_ofList]
      exact free

theorem gives_readOpenTag {start offset : Nat} {c : Char} {cs : List Char} (letter : c.isAlpha = true) :
    Gives ((readOpenTag start ⟨c :: cs, offset⟩).tokens.map Token.lexeme)
      (readOpenTag start ⟨c :: cs, offset⟩).next := by
  have plain := plainName_readName letter cs offset
  unfold readOpenTag
  dsimp only
  generalize readTagBody _ start _ = body
  split
  · rename_i alone
    refine .openTag ((Bool.or_eq_true_iff.1 alone).imp_right parsable_of_isVoid)
  · rename_i inside
    have open_ : body.selfClosing = false := by
      cases closing : body.selfClosing with
      | false => rfl
      | true => exact (inside (by rw [closing]; rfl)).elim
    split
    · rename_i model
      exact .openTag (.inr model)
    · rw [open_]
      exact gives_readRaw plain _ (fun raw => by rw [raw]; rfl) _

theorem gives_readText {c : Cursor} (some_rest : c.rest ≠ []) :
    Gives ((readText c).tokens.map Token.lexeme) (readText c).next := by
  refine .text fun nothing => ?_
  have empty := congrArg String.toList nothing
  rw [String.toList_ofList] at empty
  exact decode_ne_nil (by simp [some_rest]) empty

theorem gives_readStep {c : Cursor} (some_rest : c.rest ≠ []) :
    Gives ((readStep c).tokens.map Token.lexeme) (readStep c).next := by
  unfold readStep
  split
  · exact gives_readComment _ _
  · exact gives_readDoctype _ _
  · exact gives_readDoctype _ _
  · split
    · exact gives_readCloseTag _ _
    · split
      · rename_i starts
        unfold startsOpenTag at starts
        split at starts
        · rename_i letter rest begins
          have behind : c.drop 1 = ⟨letter :: rest, (c.drop 1).offset⟩ := by
            rw [Cursor.drop, begins]
            rfl
          rw [behind]
          exact gives_readOpenTag starts
        · cases starts
      · exact gives_readText some_rest

/-! ## Lexemes of a text -/

/-- The element ends here, with its closing tag or with the text. -/
def Seals (name : String) (ls : List Lexeme) : Prop := ls = [] ∨ ∃ more, ls = .closeTag name :: more

/-- Behind the open tag of an element whose content is read as it stands there is its text, if
any, and its end. -/
def Lexeme.Leads : Lexeme → List Lexeme → Prop
  | openTag name _ selfClosing, next =>
      selfClosing = false → (TagRules.of name).content ≠ .parsable →
        Seals name next ∨ ∃ value more, next = .text value :: more ∧
          ((TagRules.of name).content = .raw → NoClosing name.toList value.toList) ∧ Seals name more
  | _, _ => True

/-- Every open tag leads what is behind it. -/
def Orderly : List Lexeme → Prop
  | [] => True
  | l :: ls => l.Leads ls ∧ Orderly ls

theorem isAlpha_of_toLower {c : Char} (h : c.toLower.isLower = true) : c.isAlpha = true := by
  cases letter : c.isAlpha with
  | true => rfl
  | false =>
      rw [toLower_of_not_isAlpha letter] at h
      rw [← letter, isAlpha_of_isLower h]

theorem not_isNameEnd_of_toLower {c : Char} (h : isNameEnd c.toLower = false) :
    isNameEnd c = false := by
  cases letter : c.isAlpha with
  | true => exact not_isNameEnd_of_isAlpha letter
  | false => rwa [toLower_of_not_isAlpha letter] at h

/-- A name in letters of either case is read up to where names end. -/
theorem readName_lowercase {run rest : List Char} (plain : PlainName (Text.lowercase run))
    (stops : ∀ c more, rest = c :: more → isNameEnd c = true) (offset : Nat) :
    (readName ⟨run ++ rest, offset⟩).1 = Text.lowercase run := by
  have inside : ∀ c ∈ run, (!isNameEnd c) = true := fun c mem => by
    rw [not_isNameEnd_of_toLower (plain.inner _ (List.mem_map_of_mem mem))]
    rfl
  obtain ⟨o, taken⟩ := Cursor.takeWhile_append run rest offset inside
    fun c more same => by rw [stops c more same]; rfl
  rw [readName, taken]

theorem lexemes_readCloseTag (start : Nat) (c : Cursor) :
    (readCloseTag start c).tokens.map Token.lexeme = [.closeTag (String.ofList (readName c).1)] := by
  unfold readCloseTag
  dsimp only
  split <;> rfl

/-- Where the closing tag of an element stands, it is read. -/
theorem seals_readAll {name : String} (plain : PlainName name.toList) {c : Cursor}
    (h : c.rest = [] ∨ closesElement name.toList c.rest = true) :
    Seals name ((readAll c).1.map Token.lexeme) := by
  rcases h with ended | closes
  · left
    rw [readAll, dif_pos ended]
    rfl
  · right
    obtain ⟨run, rest, begins, named, stops⟩ := exists_of_closesElement closes
    have own : PlainName (Text.lowercase run) := named ▸ plain
    obtain ⟨d, more, same, small⟩ := own.first
    obtain ⟨letter, run, rfl, lowered, -⟩ := List.map_eq_cons_iff.1 same
    have alpha : letter.isAlpha = true := isAlpha_of_toLower (by rw [lowered]; exact small)
    obtain ⟨cs, offset⟩ := c
    obtain rfl : cs = _ := begins
    have step : readStep ⟨'<' :: '/' :: letter :: (run ++ rest), offset⟩ = _ :=
      readStep_closing offset alpha
    have first : (readStep ⟨'<' :: '/' :: (letter :: run ++ rest), offset⟩).tokens.map Token.lexeme =
        [.closeTag name] := by
      rw [List.cons_append, step, lexemes_readCloseTag, ← List.cons_append,
        readName_lowercase own stops, named, String.ofList_toList]
    rw [readAll, dif_neg (by simp)]
    dsimp only
    rw [List.map_append, first]
    exact ⟨_, rfl⟩

theorem orderly_of_gives {ls more : List Lexeme} {next : Cursor} (h : Gives ls next)
    (same : more = (readAll next).1.map Token.lexeme) (orderly : Orderly more) :
    Orderly (ls ++ more) := by
  cases h with
  | comment | doctype | text | closeTag => exact ⟨trivial, orderly⟩
  | openTag alone =>
      exact ⟨fun still model => (model (alone.resolve_left (by simp [still]))).elim, orderly⟩
  | content plain held ends =>
      have seals := same ▸ seals_readAll plain ends
      rcases held with rfl | ⟨value, rfl, -, free⟩
      · exact ⟨fun _ _ => .inl seals, orderly⟩
      · exact ⟨fun _ _ => .inr ⟨value, more, rfl, free, seals⟩, trivial, orderly⟩

theorem orderly_readAll (c : Cursor) : Orderly ((readAll c).1.map Token.lexeme) := by
  fun_induction readAll c with
  | case1 => trivial
  | case2 c some_rest shorter tokens flaws rest ih =>
      rw [rest] at ih
      rw [List.map_append]
      exact orderly_of_gives (gives_readStep some_rest) (by rw [rest]) ih

/-- What the texts, comments and doctypes of a text may hold. -/
def Lexeme.Clean : Lexeme → Prop
  | text value => value ≠ ""
  | comment value => ¬['-', '-', '>'] <:+: value.toList
  | doctype value => '>' ∉ value.toList
  | _ => True

theorem clean_of_gives {ls : List Lexeme} {next : Cursor} (h : Gives ls next) :
    ∀ l ∈ ls, l.Clean := by
  cases h with
  | comment own | doctype own | text own => exact List.forall_mem_singleton.2 own
  | closeTag | openTag => exact List.forall_mem_singleton.2 trivial
  | content plain held ends =>
      rcases held with rfl | ⟨value, rfl, some_text, -⟩
      · exact List.forall_mem_singleton.2 trivial
      · exact List.forall_mem_cons.2 ⟨trivial, List.forall_mem_singleton.2 some_text⟩

theorem clean_readAll (c : Cursor) : ∀ l ∈ (readAll c).1.map Token.lexeme, l.Clean := by
  fun_induction readAll c with
  | case1 => exact List.forall_mem_nil _
  | case2 c some_rest shorter tokens flaws rest ih =>
      rw [rest] at ih
      rw [List.map_append]
      exact List.forall_mem_append.2 ⟨clean_of_gives (gives_readStep some_rest), ih⟩

theorem seals_mergeTexts {name : String} {tokens : List Token}
    (h : Seals name (tokens.map Token.lexeme)) : Seals name ((mergeTexts tokens).map Token.lexeme) := by
  rcases h with nothing | ⟨more, same⟩
  · rw [List.map_eq_nil_iff.1 nothing]
    exact .inl rfl
  · obtain ⟨token, others, rfl, closing, -⟩ := List.map_eq_cons_iff.1 same
    rw [mergeTexts]
    split
    · rename_i text _
      rw [closing] at text
      cases text
    · exact .inr ⟨_, by rw [List.map_cons, closing]⟩

/-- What stands before the end of an element does not become one with it. -/
theorem mergeTexts_cons_of_seals {name : String} {tokens : List Token}
    (h : Seals name (tokens.map Token.lexeme)) (token : Token) :
    mergeTexts (token :: tokens) = token :: mergeTexts tokens := by
  rw [mergeTexts]
  split
  · rename_i merged
    rcases seals_mergeTexts h with nothing | ⟨more, same⟩
    · rw [merged] at nothing
      cases nothing
    · rw [merged] at same
      cases same
  · rfl

/-- What becomes one with its neighbour is never the text of an element whose content is read as it
stands. -/
theorem orderly_mergeTexts {tokens : List Token} (h : Orderly (tokens.map Token.lexeme)) :
    Orderly ((mergeTexts tokens).map Token.lexeme) := by
  induction tokens with
  | nil => exact h
  | cons token tokens ih =>
      obtain ⟨leads, others⟩ := h
      have further := ih others
      rw [mergeTexts]
      split
      · rename_i merged
        rw [merged] at further
        exact ⟨trivial, further.2⟩
      · refine ⟨?_, further⟩
        cases opens : token.lexeme with
        | openTag name attributes selfClosing =>
            rw [opens] at leads
            intro still model
            rcases leads still model with seals | ⟨value, more, same, free, seals⟩
            · exact .inl (seals_mergeTexts seals)
            · obtain ⟨text, rest, rfl, lexeme, rfl⟩ := List.map_eq_cons_iff.1 same
              right
              rw [mergeTexts_cons_of_seals seals, List.map_cons, lexeme]
              exact ⟨value, _, rfl, free, seals_mergeTexts seals⟩
        | _ => trivial

theorem clean_mergeTexts {tokens : List Token} (h : ∀ l ∈ tokens.map Token.lexeme, l.Clean) :
    ∀ l ∈ (mergeTexts tokens).map Token.lexeme, l.Clean := by
  induction tokens with
  | nil => exact h
  | cons token tokens ih =>
      obtain ⟨own, others⟩ := List.forall_mem_cons.1 h
      have further := ih others
      rw [mergeTexts]
      split
      · rename_i text merged
        rw [merged] at further
        rw [text] at own
        refine List.forall_mem_cons.2 ⟨fun nothing => own ?_, (List.forall_mem_cons.1 further).2⟩
        exact (String.append_eq_empty_iff.1 nothing).1
      · exact List.forall_mem_cons.2 ⟨own, further⟩

end Stencil.Markup
