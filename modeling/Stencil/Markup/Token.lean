import Stencil.Fault
import Stencil.Markup.Char
import Stencil.Markup.Entity
import Stencil.Markup.TagRules

/-! # Tokens of markup

Markup is read from left to right as tags, text, comments and doctypes, each with the
bytes that it spans. Reading never fails: what is left open is reported and closed at
the end of the text.
-/

namespace Stencil.Markup

/-- What a token is. -/
inductive Lexeme where
  | openTag (name : String) (attributes : List (String × String)) (selfClosing : Bool)
  | closeTag (name : String)
  | text (value : String)
  | comment (value : String)
  | doctype (value : String)
  deriving DecidableEq, Repr, Inhabited

/-- A lexeme and the bytes that it spans. -/
structure Token where
  lexeme : Lexeme
  start : Nat
  stop : Nat
  deriving DecidableEq, Repr, Inhabited

/-- A fault and the bytes to which it refers. -/
structure Flaw where
  fault : Fault
  start : Nat
  stop : Nat
  deriving DecidableEq, Repr, Inhabited

/-- The report of a flaw in its source. -/
def Flaw.report (source : Source) (flaw : Flaw) : SyntaxError :=
  { span := source.span flaw.start flaw.stop, fault := flaw.fault }

/-- What is left to read, and the bytes before it. -/
structure Cursor where
  rest : List Char
  offset : Nat
  deriving DecidableEq, Repr

namespace Cursor

/-- The cursor behind the first `n` characters. -/
def drop (n : Nat) (c : Cursor) : Cursor :=
  { rest := c.rest.drop n, offset := c.offset + Text.byteLength (c.rest.take n) }

/-- The characters up to the first that fails `p`, and the cursor there. -/
def takeWhile (p : Char → Bool) (c : Cursor) : List Char × Cursor :=
  let run := c.rest.takeWhile p
  (run, { rest := c.rest.dropWhile p, offset := c.offset + Text.byteLength run })

def skipBlanks (c : Cursor) : Cursor := (c.takeWhile isBlank).2

/-- The cursor at the end of the text. -/
def toEnd (c : Cursor) : Cursor := { rest := [], offset := c.offset + Text.byteLength c.rest }

/-- The text before the first `sep` and the cursor behind that `sep`. -/
def breakOn? (sep : List Char) (c : Cursor) : Option (List Char × Cursor) :=
  (Text.breakOn? sep c.rest).map fun (before, after) =>
    (before, { rest := after, offset := c.offset + Text.byteLength before + Text.byteLength sep })

theorem rest_drop_length_le (n : Nat) (c : Cursor) : (c.drop n).rest.length ≤ c.rest.length := by
  simp [drop]

theorem rest_takeWhile_length_le (p : Char → Bool) (c : Cursor) :
    (c.takeWhile p).2.rest.length ≤ c.rest.length := by
  simpa [takeWhile] using (List.dropWhile_suffix p (l := c.rest)).length_le

theorem rest_skipBlanks_length_le (c : Cursor) : c.skipBlanks.rest.length ≤ c.rest.length :=
  rest_takeWhile_length_le isBlank c

theorem rest_breakOn?_length_le {sep before : List Char} {c next : Cursor}
    (h : c.breakOn? sep = some (before, next)) : next.rest.length ≤ c.rest.length := by
  obtain ⟨⟨b, a⟩, found, same⟩ := Option.map_eq_some_iff.1 h
  simp only [Prod.mk.injEq] at same
  obtain ⟨_, rfl⟩ := same
  rw [Text.breakOn?_eq_some found]
  simp
  omega

end Cursor

/-- Whether an open tag begins here. -/
def startsOpenTag : List Char → Bool
  | '<' :: c :: _ => c.isAlpha
  | _ => false

/-- Whether a closing tag begins here. -/
def startsCloseTag : List Char → Bool
  | '<' :: '/' :: c :: _ => c.isAlpha
  | _ => false

/-- Whether a comment, a doctype or a processing instruction begins here. -/
def startsDeclaration : List Char → Bool
  | '<' :: '!' :: _ => true
  | '<' :: '?' :: _ => true
  | _ => false

/-- Whether text ends here. -/
def startsMarkup (cs : List Char) : Bool :=
  startsOpenTag cs || startsCloseTag cs || startsDeclaration cs

/-- The text up to the next markup, and the rest. -/
def textRun : List Char → List Char × List Char
  | [] => ([], [])
  | c :: cs =>
      if startsMarkup (c :: cs) then ([], c :: cs)
      else
        let (run, rest) := textRun cs
        (c :: run, rest)

theorem textRun_append (cs : List Char) : (textRun cs).1 ++ (textRun cs).2 = cs := by
  induction cs with
  | nil => rfl
  | cons c cs ih =>
      simp only [textRun]
      split
      · rfl
      · simp [ih]

/-- Whether the closing tag of the element `name` begins here, letters of either case. -/
def closesElement (name cs : List Char) : Bool :=
  Text.lowercase (cs.take (name.length + 2)) == '<' :: '/' :: name &&
    match cs.drop (name.length + 2) with
    | [] => true
    | c :: _ => isNameEnd c

/-- The content of the element `name` up to its closing tag, and the rest. -/
def rawRun (name : List Char) : List Char → List Char × List Char
  | [] => ([], [])
  | c :: cs =>
      if closesElement name (c :: cs) then ([], c :: cs)
      else
        let (run, rest) := rawRun name cs
        (c :: run, rest)

theorem rawRun_append (name cs : List Char) : (rawRun name cs).1 ++ (rawRun name cs).2 = cs := by
  induction cs with
  | nil => rfl
  | cons c cs ih =>
      simp only [rawRun]
      split
      · rfl
      · simp [ih]

/-- What one step of reading gives: tokens, flaws and where reading goes on. -/
structure Step where
  tokens : List Token
  flaws : List Flaw
  next : Cursor
  deriving Repr

/-- A comment, behind its opening. -/
def readComment (start : Nat) (c : Cursor) : Step :=
  match c.breakOn? ['-', '-', '>'] with
  | some (value, next) =>
      { tokens := [⟨.comment (String.ofList value), start, next.offset⟩], flaws := [], next }
  | none =>
      let next := c.toEnd
      { tokens := [⟨.comment (String.ofList c.rest), start, next.offset⟩]
        flaws := [⟨.unexpectedEnd, start, next.offset⟩]
        next }

/-- A doctype, behind its opening. -/
def readDoctype (start : Nat) (c : Cursor) : Step :=
  match c.breakOn? ['>'] with
  | some (value, next) =>
      { tokens := [⟨.doctype (String.ofList value), start, next.offset⟩], flaws := [], next }
  | none =>
      let next := c.toEnd
      { tokens := [⟨.doctype (String.ofList c.rest), start, next.offset⟩]
        flaws := [⟨.unexpectedEnd, start, next.offset⟩]
        next }

/-- The name of a tag, in small letters. -/
def readName (c : Cursor) : List Char × Cursor :=
  let (run, next) := c.takeWhile fun ch => !isNameEnd ch
  (Text.lowercase run, next)

/-- A closing tag, behind its opening. -/
def readCloseTag (start : Nat) (c : Cursor) : Step :=
  let (name, behind) := readName c
  let name := String.ofList name
  match behind.skipBlanks.breakOn? ['>'] with
  | some (_, next) => { tokens := [⟨.closeTag name, start, next.offset⟩], flaws := [], next }
  | none =>
      let next := behind.skipBlanks.toEnd
      { tokens := [⟨.closeTag name, start, next.offset⟩]
        flaws := [⟨.unexpectedEndInClosingTag name, start, next.offset⟩]
        next }

/-- The value of an attribute, behind the equals sign and blanks. -/
def readValue (c : Cursor) : String × List Flaw × Cursor :=
  match c.rest with
  | quote :: _ =>
      if isQuote quote then
        match (c.drop 1).breakOn? [quote] with
        | some (value, next) => (String.ofList (decode value), [], next)
        | none =>
            let next := c.toEnd
            (String.ofList (decode (c.drop 1).rest),
              [⟨.unexpectedEndInAttribute, c.offset, next.offset⟩], next)
      else
        let (value, next) := c.takeWhile fun ch => !isBlank ch && ch != '>'
        (String.ofList (decode value), [], next)
  | [] => ("", [], c)

theorem readValue_rest_length_le (c : Cursor) : (readValue c).2.2.rest.length ≤ c.rest.length := by
  unfold readValue
  split
  · split
    · split
      · rename_i found
        exact Nat.le_trans (Cursor.rest_breakOn?_length_le found) (c.rest_drop_length_le 1)
      · simp [Cursor.toEnd]
    · exact c.rest_takeWhile_length_le _
  · exact Nat.le_refl _

/-- An attribute. Its first character may be anything. -/
def readAttribute (c : Cursor) : (String × String) × List Flaw × Cursor :=
  let (run, behind) := (c.drop 1).takeWhile fun ch => !isNameEnd ch
  let name := String.ofList (Text.lowercase (c.rest.take 1 ++ run))
  let behind := behind.skipBlanks
  match behind.rest with
  | '=' :: _ =>
      let (value, flaws, next) := readValue (behind.drop 1).skipBlanks
      ((name, value), flaws, next)
  | _ => ((name, ""), [], behind)

theorem readAttribute_rest_length_lt {c : Cursor} (h : c.rest ≠ []) :
    (readAttribute c).2.2.rest.length < c.rest.length := by
  have first : (c.drop 1).rest.length < c.rest.length := by
    have := List.length_pos_iff.2 h
    simp [Cursor.drop]
    omega
  have run := (c.drop 1).rest_takeWhile_length_le fun ch => !isNameEnd ch
  have skip := ((c.drop 1).takeWhile fun ch => !isNameEnd ch).2.rest_skipBlanks_length_le
  unfold readAttribute
  dsimp only
  split
  · have value := readValue_rest_length_le
      ((((c.drop 1).takeWhile fun ch => !isNameEnd ch).2.skipBlanks.drop 1).skipBlanks)
    have blanks :=
      (((c.drop 1).takeWhile fun ch => !isNameEnd ch).2.skipBlanks.drop 1).rest_skipBlanks_length_le
    have one := ((c.drop 1).takeWhile fun ch => !isNameEnd ch).2.skipBlanks.rest_drop_length_le 1
    exact Nat.lt_of_le_of_lt value (by omega)
  · exact Nat.lt_of_le_of_lt skip (by omega)

/-- The inside of an open tag that has been read. -/
structure TagBody where
  attributes : List (String × String)
  selfClosing : Bool
  flaws : List Flaw
  next : Cursor
  deriving Repr

/-- The attributes of the tag `name` that begins at `start`, and the end of the tag. -/
def readTagBody (name : String) (start : Nat) (c : Cursor) : TagBody :=
  let here := c.skipBlanks
  have skipped : here.rest.length ≤ c.rest.length := c.rest_skipBlanks_length_le
  match h : here.rest with
  | [] => ⟨[], false, [⟨.unexpectedEndInTag name, start, here.offset⟩], here⟩
  | '>' :: _ => ⟨[], false, [], here.drop 1⟩
  | '/' :: '>' :: _ => ⟨[], true, [], here.drop 2⟩
  | '/' :: _ =>
      have : (here.drop 1).rest.length < c.rest.length := by
        simp only [Cursor.drop, h, List.drop_succ_cons, List.drop_zero]
        rw [h] at skipped
        simp only [List.length_cons] at skipped
        omega
      readTagBody name start (here.drop 1)
  | _ :: _ =>
      if startsOpenTag here.rest then
        ⟨[], false, [⟨.unclosedTag name, start, here.offset⟩], here⟩
      else
        have : (readAttribute here).2.2.rest.length < c.rest.length :=
          Nat.lt_of_lt_of_le (readAttribute_rest_length_lt (by simp [h])) skipped
        let body := readTagBody name start (readAttribute here).2.2
        ⟨(readAttribute here).1 :: body.attributes, body.selfClosing,
          (readAttribute here).2.1 ++ body.flaws, body.next⟩
termination_by c.rest.length

theorem readTagBody_rest_length_le (name : String) (start : Nat) (c : Cursor) :
    (readTagBody name start c).next.rest.length ≤ c.rest.length := by
  fun_induction readTagBody name start c <;> simp_all +zetaDelta [Cursor.drop] <;> omega

/-- The content of an element that is read as it stands, as a text token if there is any. -/
def readRaw (name : List Char) (decoded : Bool) (c : Cursor) : Step :=
  let (run, rest) := rawRun name c.rest
  let next : Cursor := { rest, offset := c.offset + Text.byteLength run }
  if run.isEmpty then { tokens := [], flaws := [], next }
  else
    let value := String.ofList (if decoded then decode run else run)
    { tokens := [⟨.text value, c.offset, next.offset⟩], flaws := [], next }

theorem readRaw_rest_length_le (name : List Char) (decoded : Bool) (c : Cursor) :
    (readRaw name decoded c).next.rest.length ≤ c.rest.length := by
  have whole := congrArg List.length (rawRun_append name c.rest)
  simp only [List.length_append] at whole
  unfold readRaw
  dsimp only
  split <;> (dsimp only; omega)

/-- An open tag, behind its less-than sign, with content that is read as it stands. -/
def readOpenTag (start : Nat) (c : Cursor) : Step :=
  let (run, behind) := readName c
  let name := String.ofList run
  let body := readTagBody name start behind
  let token : Token := ⟨.openTag name body.attributes body.selfClosing, start, body.next.offset⟩
  let rules := TagRules.of name
  if body.selfClosing || rules.isVoid then
    { tokens := [token], flaws := body.flaws, next := body.next }
  else
    let inside := match body.next.rest with
      | '\n' :: _ => if rules.skipsNewline then body.next.drop 1 else body.next
      | _ => body.next
    match rules.content with
    | .parsable => { tokens := [token], flaws := body.flaws, next := inside }
    | model =>
        let content := readRaw run (model == .escapable) inside
        { tokens := token :: content.tokens, flaws := body.flaws, next := content.next }

theorem readOpenTag_rest_length_le (start : Nat) (c : Cursor) :
    (readOpenTag start c).next.rest.length ≤ c.rest.length := by
  have name := c.rest_takeWhile_length_le fun ch => !isNameEnd ch
  have body := readTagBody_rest_length_le
    (String.ofList (readName c).1) start (readName c).2
  have behind : (readName c).2.rest.length ≤ c.rest.length := name
  unfold readOpenTag
  dsimp only
  split
  · dsimp only
    omega
  · have inside : ∀ (next : Cursor) (skips : Bool),
        (match next.rest with
          | '\n' :: _ => if skips then next.drop 1 else next
          | _ => next).rest.length ≤ next.rest.length := by
      intro next skips
      split
      · split
        · exact next.rest_drop_length_le 1
        · exact Nat.le_refl _
      · exact Nat.le_refl _
    have here := inside (readTagBody (String.ofList (readName c).1) start (readName c).2).next
      (TagRules.of (String.ofList (readName c).1)).skipsNewline
    split
    · dsimp only
      omega
    · dsimp only
      exact Nat.le_trans (readRaw_rest_length_le _ _ _) (by omega)

/-- Text: a first character, whatever it is, and all up to the next markup. -/
def readText (c : Cursor) : Step :=
  let (run, rest) := textRun (c.rest.drop 1)
  let raw := c.rest.take 1 ++ run
  let next : Cursor := { rest, offset := c.offset + Text.byteLength raw }
  { tokens := [⟨.text (String.ofList (decode raw)), c.offset, next.offset⟩], flaws := [], next }

/-- The next token, with the raw content behind it if there is any. -/
def readStep (c : Cursor) : Step :=
  match c.rest with
  | '<' :: '!' :: '-' :: '-' :: _ => readComment c.offset (c.drop 4)
  | '<' :: '!' :: _ => readDoctype c.offset (c.drop 2)
  | '<' :: '?' :: _ => readDoctype c.offset (c.drop 2)
  | cs =>
      if startsCloseTag cs then readCloseTag c.offset (c.drop 2)
      else if startsOpenTag cs then readOpenTag c.offset (c.drop 1)
      else readText c

theorem readStep_rest_length_lt {c : Cursor} (h : c.rest ≠ []) :
    (readStep c).next.rest.length < c.rest.length := by
  have shorter : ∀ n, 0 < n → (c.drop n).rest.length < c.rest.length := by
    intro n hn
    have := List.length_pos_iff.2 h
    simp [Cursor.drop]
    omega
  have comment : ∀ start d, (readComment start d).next.rest.length ≤ d.rest.length := by
    intro start d
    unfold readComment
    split
    · rename_i found
      exact Cursor.rest_breakOn?_length_le found
    · simp [Cursor.toEnd]
  have doctype : ∀ start d, (readDoctype start d).next.rest.length ≤ d.rest.length := by
    intro start d
    unfold readDoctype
    split
    · rename_i found
      exact Cursor.rest_breakOn?_length_le found
    · simp [Cursor.toEnd]
  have closing : ∀ start d, (readCloseTag start d).next.rest.length ≤ d.rest.length := by
    intro start d
    have name := d.rest_takeWhile_length_le fun ch => !isNameEnd ch
    have blanks := (readName d).2.rest_skipBlanks_length_le
    have behind : (readName d).2.rest.length ≤ d.rest.length := name
    unfold readCloseTag
    dsimp only
    split
    · rename_i found
      exact Nat.le_trans (Cursor.rest_breakOn?_length_le found) (by omega)
    · simp [Cursor.toEnd]
  unfold readStep
  split
  · exact Nat.lt_of_le_of_lt (comment _ _) (shorter 4 (by omega))
  · exact Nat.lt_of_le_of_lt (doctype _ _) (shorter 2 (by omega))
  · exact Nat.lt_of_le_of_lt (doctype _ _) (shorter 2 (by omega))
  · split
    · exact Nat.lt_of_le_of_lt (closing _ _) (shorter 2 (by omega))
    · split
      · exact Nat.lt_of_le_of_lt (readOpenTag_rest_length_le _ _) (shorter 1 (by omega))
      · have whole := congrArg List.length (textRun_append (c.rest.drop 1))
        have first := shorter 1 (by omega)
        simp only [List.length_append] at whole
        simp only [Cursor.drop] at first
        simp only [readText]
        omega

/-- All tokens and flaws from a cursor to the end of the text. -/
def readAll (c : Cursor) : List Token × List Flaw :=
  if h : c.rest = [] then ([], [])
  else
    have := readStep_rest_length_lt h
    let (tokens, flaws) := readAll (readStep c).next
    ((readStep c).tokens ++ tokens, (readStep c).flaws ++ flaws)
termination_by c.rest.length

/-- Adjacent texts become one. -/
def mergeTexts : List Token → List Token
  | [] => []
  | token :: tokens =>
      match token.lexeme, mergeTexts tokens with
      | .text value, ⟨.text more, _, stop⟩ :: others =>
          ⟨.text (value ++ more), token.start, stop⟩ :: others
      | _, others => token :: others

/-- The tokens of a text, and the flaws that were met. -/
def tokenize (text : String) : List Token × List Flaw :=
  let (tokens, flaws) := readAll { rest := text.toList, offset := 0 }
  (mergeTexts tokens, flaws)

end Stencil.Markup
