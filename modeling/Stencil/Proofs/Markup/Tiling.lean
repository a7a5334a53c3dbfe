import Stencil.Proofs.Markup.Element
import Stencil.Proofs.Text.Spans
import Stencil.Proofs.Text.Tiles

/-! # Tiling

The tokens of a text lie side by side and cover it, but for the line feed that some elements
drop behind their open tags. Reading is followed from cursor to cursor: each function of the
reader ends at a cursor that its own one reaches, and whatever it reports lies in between.
-/

namespace Stencil.Markup

open Text

/-! ## Reaching -/

namespace Cursor

variable {a b c d : Cursor}

/-- The cursor `d` stands behind a piece of what is left to read at `c`. -/
def Reaches (c d : Cursor) : Prop :=
  ∃ piece, c.rest = piece ++ d.rest ∧ d.offset = c.offset + byteLength piece

theorem Reaches.refl (c : Cursor) : c.Reaches c := ⟨[], rfl, rfl⟩

theorem Reaches.trans (h : a.Reaches b) (k : b.Reaches c) : a.Reaches c := by
  obtain ⟨first, restA, offsetB⟩ := h
  obtain ⟨second, restB, offsetC⟩ := k
  refine ⟨first ++ second, by rw [restA, restB, List.append_assoc], ?_⟩
  rw [offsetC, offsetB, byteLength_append, Nat.add_assoc]

theorem Reaches.offset_le (h : a.Reaches b) : a.offset ≤ b.offset := by
  obtain ⟨piece, -, offset⟩ := h
  omega

theorem reaches_drop (n : Nat) (c : Cursor) : c.Reaches (c.drop n) :=
  ⟨c.rest.take n, (List.take_append_drop n c.rest).symm, rfl⟩

theorem reaches_takeWhile (p : Char → Bool) (c : Cursor) : c.Reaches (c.takeWhile p).2 :=
  ⟨c.rest.takeWhile p, List.takeWhile_append_dropWhile.symm, rfl⟩

theorem reaches_skipBlanks (c : Cursor) : c.Reaches c.skipBlanks := reaches_takeWhile isBlank c

theorem reaches_toEnd (c : Cursor) : c.Reaches c.toEnd := ⟨c.rest, (List.append_nil _).symm, rfl⟩

theorem reaches_breakOn? {sep before : List Char} (h : c.breakOn? sep = some (before, d)) :
    c.Reaches d := by
  obtain ⟨⟨front, back⟩, found, same⟩ := Option.map_eq_some_iff.1 h
  obtain ⟨rfl, rfl⟩ := Prod.mk.inj same
  exact ⟨front ++ sep, breakOn?_eq_some found, by rw [byteLength_append, Nat.add_assoc]⟩

/-- Behind at least one character, the offset is greater. -/
theorem offset_lt_drop {n : Nat} (some_rest : c.rest ≠ []) (some_char : n ≠ 0) :
    c.offset < (c.drop n).offset := by
  have piece : byteLength (c.rest.take n) ≠ 0 := fun none_read => by
    rcases List.take_eq_nil_iff.1 (eq_nil_of_byteLength none_read) with zero | empty
    · exact some_char zero
    · exact some_rest empty
  simp only [drop]
  omega

theorem offset_drop_newline {cs : List Char} (h : c.rest = '\n' :: cs) :
    (c.drop 1).offset = c.offset + 1 := by
  rw [drop, h]
  rfl

end Cursor

open Cursor

/-- All flaws lie between the two cursors, and none ends before it begins. -/
def FlawsWithin (c d : Cursor) (flaws : List Flaw) : Prop :=
  ∀ flaw ∈ flaws, ∃ a b, c.Reaches a ∧ a.Reaches b ∧ b.Reaches d ∧
    flaw.start = a.offset ∧ flaw.stop = b.offset

namespace FlawsWithin

variable {c c' d d' : Cursor} {flaws more : List Flaw}

theorem nil (c d : Cursor) : FlawsWithin c d [] := nofun

theorem append (h : FlawsWithin c d flaws) (k : FlawsWithin c d more) :
    FlawsWithin c d (flaws ++ more) := List.forall_mem_append.2 ⟨h, k⟩

theorem single (h : c.Reaches d) (fault : Fault) :
    FlawsWithin c d [⟨fault, c.offset, d.offset⟩] :=
  List.forall_mem_singleton.2 ⟨c, d, .refl c, h, .refl d, rfl, rfl⟩

theorem mono (h : FlawsWithin c d flaws) (before : c'.Reaches c) (behind : d.Reaches d') :
    FlawsWithin c' d' flaws := by
  intro flaw mem
  obtain ⟨a, b, first, inside, last, start, stop⟩ := h flaw mem
  exact ⟨a, b, before.trans first, inside, last.trans behind, start, stop⟩

end FlawsWithin

/-! ## Attributes and the inside of a tag -/

theorem readValue_within (c : Cursor) :
    c.Reaches (readValue c).2.2 ∧ FlawsWithin c (readValue c).2.2 (readValue c).2.1 := by
  unfold readValue
  split
  · split
    · split
      · rename_i found
        exact ⟨(reaches_drop 1 c).trans (reaches_breakOn? found), .nil _ _⟩
      · exact ⟨reaches_toEnd c, .single (reaches_toEnd c) _⟩
    · exact ⟨reaches_takeWhile _ c, .nil _ _⟩
  · exact ⟨.refl c, .nil _ _⟩

theorem readAttribute_within (c : Cursor) :
    c.Reaches (readAttribute c).2.2 ∧ FlawsWithin c (readAttribute c).2.2 (readAttribute c).2.1 := by
  have named : c.Reaches ((c.drop 1).takeWhile fun ch => !isNameEnd ch).2.skipBlanks :=
    ((reaches_drop 1 c).trans (reaches_takeWhile _ _)).trans (reaches_skipBlanks _)
  unfold readAttribute
  dsimp only
  split
  · have equals := (named.trans (reaches_drop 1 _)).trans (reaches_skipBlanks _)
    obtain ⟨value, flaws⟩ := readValue_within
      (((c.drop 1).takeWhile fun ch => !isNameEnd ch).2.skipBlanks.drop 1).skipBlanks
    exact ⟨equals.trans value, flaws.mono equals (.refl _)⟩
  · exact ⟨named, .nil _ _⟩

/-- The flaws of a tag lie behind the beginning of the tag. -/
theorem readTagBody_within (name : String) {o c : Cursor} (h : o.Reaches c) :
    c.Reaches (readTagBody name o.offset c).next ∧
      FlawsWithin o (readTagBody name o.offset c).next (readTagBody name o.offset c).flaws := by
  have blanks := reaches_skipBlanks
  fun_induction readTagBody name o.offset c with
  | case1 c here => exact ⟨blanks c, .single (h.trans (blanks c)) _⟩
  | case2 c here => exact ⟨(blanks c).trans (reaches_drop 1 _), .nil _ _⟩
  | case3 c here => exact ⟨(blanks c).trans (reaches_drop 2 _), .nil _ _⟩
  | case4 c here _ _ _ _ _ ih =>
      have slash := (blanks c).trans (reaches_drop 1 _)
      obtain ⟨behind, flaws⟩ := ih (h.trans slash)
      exact ⟨slash.trans behind, flaws⟩
  | case5 c here => exact ⟨blanks c, .single (h.trans (blanks c)) _⟩
  | case6 c here _ _ _ _ _ _ _ _ _ body ih =>
      obtain ⟨entry, own⟩ := readAttribute_within here
      have first := (blanks c).trans entry
      obtain ⟨behind, flaws⟩ := ih (h.trans first)
      exact ⟨first.trans behind, (own.mono (h.trans (blanks c)) behind).append flaws⟩

/-! ## Tiles -/

/-- The token begins at `c` and ends at `d`, and there is something in between. -/
structure Token.Spans (token : Token) (c d : Cursor) : Prop where
  reaches : c.Reaches d
  start : token.start = c.offset
  stop : token.stop = d.offset
  some_byte : token.start < token.stop

/-- The token is the open tag of an element that drops a line feed behind it. -/
def Token.SkipsNewline (token : Token) : Prop :=
  ∃ name attributes selfClosing, token.lexeme = .openTag name attributes selfClosing ∧
    (TagRules.of name).skipsNewline = true

/-- What is passed over behind a token: nothing, or a line feed that is dropped. -/
inductive Token.Skips (token : Token) (c : Cursor) : Cursor → Prop where
  | nothing : token.Skips c c
  | newline {cs : List Char} (opens : token.SkipsNewline) (rest : c.rest = '\n' :: cs) :
      token.Skips c (c.drop 1)

/-- The tokens lie side by side from one cursor to the other. -/
inductive Tiles : Cursor → List Token → Cursor → Prop where
  | nil (c : Cursor) : Tiles c [] c
  | cons {c d d' e : Cursor} {token : Token} {tokens : List Token} (spans : token.Spans c d)
      (skips : token.Skips d d') (further : Tiles d' tokens e) : Tiles c (token :: tokens) e

variable {c d e : Cursor} {token : Token} {tokens more : List Token}

theorem Token.Skips.reaches (h : token.Skips c d) : c.Reaches d := by
  cases h with
  | nothing => exact .refl c
  | newline => exact reaches_drop 1 c

/-- Behind a text nothing is passed over. -/
theorem Token.Skips.of_text (h : token.Skips c d) {value : String} (text : token.lexeme = .text value) :
    c = d := by
  cases h with
  | nothing => rfl
  | newline opens =>
      obtain ⟨name, attributes, selfClosing, tag, -⟩ := opens
      rw [text] at tag
      cases tag

theorem Tiles.single (h : token.Spans c d) : Tiles c [token] d := .cons h .nothing (.nil d)

theorem Tiles.append (h : Tiles c tokens d) (k : Tiles d more e) : Tiles c (tokens ++ more) e := by
  induction h with
  | nil => exact k
  | cons spans skips _ ih => exact .cons spans skips (ih k)

theorem Tiles.reaches (h : Tiles c tokens d) : c.Reaches d := by
  induction h with
  | nil c => exact .refl c
  | cons spans skips _ ih => exact (spans.reaches.trans skips.reaches).trans ih

/-- Two neighbouring texts touch, so that they can become one. -/
theorem Tiles.mergeTexts (h : Tiles c tokens d) : Tiles c (mergeTexts tokens) d := by
  induction h with
  | nil c => exact .nil c
  | @cons c d d' e token tokens spans skips further ih =>
      rw [Markup.mergeTexts]
      split
      · rename_i value more start stop others text merged
        rw [merged] at ih
        obtain rfl := skips.of_text text
        cases ih with
        | cons next beyond rest =>
            obtain rfl := beyond.of_text rfl
            refine .cons ⟨spans.reaches.trans next.reaches, spans.start, next.stop, ?_⟩ .nothing rest
            have own := spans.some_byte
            have more_bytes := next.some_byte
            have joined := next.start.trans spans.stop.symm
            dsimp only at more_bytes joined ⊢
            omega
      · exact .cons spans skips ih

/-- Every token spans what lies between two cursors on the way. -/
theorem Tiles.spans (h : Tiles c tokens e) {token : Token} (mem : token ∈ tokens) :
    ∃ a b, c.Reaches a ∧ token.Spans a b ∧ b.Reaches e := by
  induction h with
  | nil => cases mem
  | cons spans skips further ih =>
      rcases List.mem_cons.1 mem with rfl | mem
      · exact ⟨_, _, .refl _, spans, skips.reaches.trans further.reaches⟩
      · obtain ⟨a, b, before, here, behind⟩ := ih mem
        exact ⟨a, b, (spans.reaches.trans skips.reaches).trans before, here, behind⟩

/-- No token begins before the tokens in front of it have ended. -/
theorem Tiles.pairwise (h : Tiles c tokens e) : tokens.Pairwise fun a b => a.stop ≤ b.start := by
  induction h with
  | nil => exact .nil
  | cons spans skips further ih =>
      refine List.pairwise_cons.2 ⟨fun other mem => ?_, ih⟩
      obtain ⟨a, b, before, here, -⟩ := further.spans mem
      rw [spans.stop, here.start]
      exact (skips.reaches.trans before).offset_le

/-- What no token spans is a line feed that is passed over. -/
theorem Tiles.covers (h : Tiles c tokens e) {i : Nat} (from_here : c.offset ≤ i)
    (before_end : i < e.offset) :
    (∃ token ∈ tokens, token.start ≤ i ∧ i < token.stop) ∨
      ∃ token ∈ tokens, token.SkipsNewline ∧ token.stop = i ∧
        ∃ d, c.Reaches d ∧ d.offset = i ∧ ∃ cs, d.rest = '\n' :: cs := by
  induction h with
  | nil => omega
  | @cons c d d' e token tokens spans skips further ih =>
      rcases Nat.lt_or_ge i token.stop with own | behind
      · exact .inl ⟨token, List.mem_cons_self, by rw [spans.start]; exact from_here, own⟩
      · rw [spans.stop] at behind
        rcases Nat.lt_or_ge i d'.offset with passed | later
        · right
          cases skips with
          | nothing => omega
          | newline opens rest =>
              have one := offset_drop_newline rest
              have last : d.offset = i := by omega
              exact ⟨token, List.mem_cons_self, opens, by rw [spans.stop, last], d, spans.reaches,
                last, _, rest⟩
        · rcases ih later before_end with
            ⟨other, mem, inside⟩ | ⟨other, mem, opens, stop, d, reached, there⟩
          · exact .inl ⟨other, List.mem_cons_of_mem _ mem, inside⟩
          · exact .inr ⟨other, List.mem_cons_of_mem _ mem, opens, stop, d,
              (spans.reaches.trans skips.reaches).trans reached, there⟩

/-! ## Reading -/

/-- The tokens of a step tile what it reads, and its flaws lie there. -/
structure Step.Sound (step : Step) (c : Cursor) : Prop where
  tiles : Tiles c step.tokens step.next
  flaws : FlawsWithin c step.next step.flaws

theorem sound_single {flaws : List Flaw} (h : c.Reaches d) (some_byte : c.offset < d.offset)
    (lexeme : Lexeme) (within : FlawsWithin c d flaws) :
    Step.Sound ⟨[⟨lexeme, c.offset, d.offset⟩], flaws, d⟩ c :=
  ⟨.single ⟨h, rfl, rfl, some_byte⟩, within⟩

/-- Reading up to a separator, or with a report to the end of the text. -/
theorem sound_upTo {o : Cursor} {sep : List Char} {lexeme : List Char → Lexeme} {fault : Fault}
    (h : o.Reaches c) (some_byte : o.offset < c.offset) :
    Step.Sound (match c.breakOn? sep with
      | some (value, next) => ⟨[⟨lexeme value, o.offset, next.offset⟩], [], next⟩
      | none => ⟨[⟨lexeme c.rest, o.offset, c.toEnd.offset⟩], [⟨fault, o.offset, c.toEnd.offset⟩],
          c.toEnd⟩) o := by
  split
  · rename_i found
    have behind := reaches_breakOn? found
    exact sound_single (h.trans behind) (Nat.lt_of_lt_of_le some_byte behind.offset_le) _ (.nil _ _)
  · have behind := reaches_toEnd c
    exact sound_single (h.trans behind) (Nat.lt_of_lt_of_le some_byte behind.offset_le) _
      (.single (h.trans behind) _)

/-- Reading a piece of text. -/
theorem sound_piece {piece rest : List Char} (whole : c.rest = piece ++ rest) (some_piece : piece ≠ [])
    (lexeme : Lexeme) :
    Step.Sound ⟨[⟨lexeme, c.offset, c.offset + byteLength piece⟩], [],
      ⟨rest, c.offset + byteLength piece⟩⟩ c := by
  have some_byte : byteLength piece ≠ 0 := fun none_read => some_piece (eq_nil_of_byteLength none_read)
  exact sound_single (d := ⟨rest, c.offset + byteLength piece⟩) ⟨piece, whole, rfl⟩
    (Nat.lt_add_of_pos_right (Nat.pos_of_ne_zero some_byte)) lexeme (.nil _ _)

theorem sound_readRaw (name : List Char) (decoded : Bool) (c : Cursor) :
    (readRaw name decoded c).Sound c := by
  have whole := rawRun_append name c.rest
  unfold readRaw
  dsimp only
  split
  · rename_i none_read
    rw [List.isEmpty_iff] at none_read
    rw [none_read, List.nil_append] at whole
    rw [none_read, whole]
    exact ⟨.nil c, .nil _ _⟩
  · rename_i some_read
    rw [List.isEmpty_iff] at some_read
    exact sound_piece whole.symm some_read _

theorem skips_newline (token : Token) {name : String} {attributes : List (String × String)}
    {selfClosing : Bool} (opens : token.lexeme = .openTag name attributes selfClosing) (c : Cursor) :
    token.Skips c (match c.rest with
      | '\n' :: _ => if (TagRules.of name).skipsNewline then c.drop 1 else c
      | _ => c) := by
  split
  · rename_i rest
    split
    · rename_i rules
      exact .newline ⟨name, attributes, selfClosing, opens, rules⟩ rest
    · exact .nothing
  · exact .nothing

theorem sound_readOpenTag {o : Cursor} (h : o.Reaches c) (some_byte : o.offset < c.offset) :
    (readOpenTag o.offset c).Sound o := by
  have named : c.Reaches (readName c).2 := reaches_takeWhile _ c
  obtain ⟨inner, flaws⟩ := readTagBody_within (String.ofList (readName c).1) (h.trans named)
  unfold readOpenTag
  dsimp only
  generalize String.ofList (readName c).1 = name at inner flaws
  generalize readTagBody name o.offset (readName c).2 = body at inner flaws
  have behind := named.trans inner
  have spans : Token.Spans ⟨.openTag name body.attributes body.selfClosing, o.offset, body.next.offset⟩
      o body.next :=
    ⟨h.trans behind, rfl, rfl, Nat.lt_of_lt_of_le some_byte behind.offset_le⟩
  have skips := skips_newline ⟨.openTag name body.attributes body.selfClosing, o.offset,
    body.next.offset⟩ rfl body.next
  split
  · exact ⟨.single spans, flaws⟩
  · split
    · exact ⟨.cons spans skips (.nil _), flaws.mono (.refl o) skips.reaches⟩
    · obtain ⟨tiles, -⟩ := sound_readRaw (readName c).1 _ _
      exact ⟨.cons spans skips tiles, flaws.mono (.refl o) (skips.reaches.trans tiles.reaches)⟩

theorem sound_readStep (some_rest : c.rest ≠ []) : (readStep c).Sound c := by
  have behind (n : Nat) (some_char : n ≠ 0) : c.Reaches (c.drop n) ∧ c.offset < (c.drop n).offset :=
    ⟨reaches_drop n c, offset_lt_drop some_rest some_char⟩
  unfold readStep
  split
  · exact sound_upTo (behind 4 (by decide)).1 (behind 4 (by decide)).2
  · exact sound_upTo (behind 2 (by decide)).1 (behind 2 (by decide)).2
  · exact sound_upTo (behind 2 (by decide)).1 (behind 2 (by decide)).2
  · split
    · have named := (reaches_takeWhile (fun ch => !isNameEnd ch) (c.drop 2)).trans (reaches_skipBlanks _)
      exact sound_upTo ((behind 2 (by decide)).1.trans named)
        (Nat.lt_of_lt_of_le (behind 2 (by decide)).2 named.offset_le)
    · split
      · exact sound_readOpenTag (behind 1 (by decide)).1 (behind 1 (by decide)).2
      · have first : c.rest.take 1 ++ (textRun (c.rest.drop 1)).1 ≠ [] := by simp [some_rest]
        refine sound_piece ?_ first _
        rw [List.append_assoc, textRun_append, List.take_append_drop]

theorem readAll_tiles (c : Cursor) : ∃ e : Cursor, e.rest = [] ∧ Tiles c (readAll c).1 e ∧
    FlawsWithin c e (readAll c).2 := by
  fun_induction readAll c with
  | case1 c ended => exact ⟨c, ended, .nil c, .nil c c⟩
  | case2 c some_rest shorter tokens flaws rest ih =>
      obtain ⟨e, ended, further, within⟩ := rest ▸ ih
      obtain ⟨tiles, own⟩ := sound_readStep some_rest
      exact ⟨e, ended, tiles.append further,
        (own.mono (.refl c) further.reaches).append (within.mono tiles.reaches (.refl e))⟩

theorem exists_of_isText {lexeme : Lexeme} (h : lexeme.isText = true) :
    ∃ value, lexeme = .text value := by
  cases lexeme with
  | text value => exact ⟨value, rfl⟩
  | openTag | closeTag | comment | doctype => cases h

theorem textsApart_mergeTexts (tokens : List Token) :
    TextsApart ((mergeTexts tokens).map Token.lexeme) := by
  induction tokens with
  | nil => exact .nil
  | cons token tokens ih =>
      rw [mergeTexts]
      split
      · rename_i value more start stop others text merged
        rw [merged] at ih
        exact List.isChain_cons.2 (List.isChain_cons.1 ih)
      · rename_i apart
        refine List.isChain_cons.2 ⟨fun lexeme first both => ?_, ih⟩
        cases merged : mergeTexts tokens with
        | nil =>
            rw [merged] at first
            cases first
        | cons next others =>
            rw [merged] at first
            obtain rfl := Option.some.inj first
            obtain ⟨value, own⟩ := exists_of_isText both.1
            obtain ⟨more, text⟩ := exists_of_isText both.2
            exact apart value more next.start next.stop others own (by rw [merged, ← text])

/-! ## Places in the text -/

/-- The bytes from `start` to `stop` are those of a piece of the text. -/
structure Occupies (text front piece : List Char) (start stop : Nat) : Prop where
  inside : front ++ piece <+: text
  start : start = byteLength front
  stop : stop = byteLength front + byteLength piece

theorem occupies_of_reaches {text : List Char} {a b : Cursor} (before : Cursor.Reaches ⟨text, 0⟩ a)
    {piece : List Char} (rest : a.rest = piece ++ b.rest)
    (offset : b.offset = a.offset + byteLength piece) :
    ∃ front, Occupies text front piece a.offset b.offset := by
  obtain ⟨front, whole, start⟩ := before
  rw [Nat.zero_add] at start
  exact ⟨front, ⟨b.rest, by rw [List.append_assoc, ← rest]; exact whole.symm⟩, start,
    by rw [offset, start]⟩

/-- The tokens of a text are pieces of it, none of them empty, one behind the other, and no two
neighbours are texts. Every byte belongs to a token or is the line feed directly behind the open
tag of a `pre` or a `textarea`. What is reported is a piece of the text as well. -/
theorem tokenize_tiles (source : Source) :
    (∀ token ∈ (tokenize source.text).1, ∃ front piece, piece ≠ [] ∧
        Occupies source.text.toList front piece token.start token.stop) ∧
      ((tokenize source.text).1.Pairwise fun a b => a.stop ≤ b.start) ∧
      TextsApart ((tokenize source.text).1.map Token.lexeme) ∧
      (∀ i < byteLength source.text.toList,
        (∃ token ∈ (tokenize source.text).1, token.start ≤ i ∧ i < token.stop) ∨
          ∃ token ∈ (tokenize source.text).1, ∃ name attributes selfClosing front,
            token.lexeme = .openTag name attributes selfClosing ∧ (name = "pre" ∨ name = "textarea") ∧
              token.stop = i ∧ Occupies source.text.toList front ['\n'] i (i + 1)) ∧
      ∀ flaw ∈ (tokenize source.text).2, ∃ front piece,
        Occupies source.text.toList front piece flaw.start flaw.stop ∧
          (flaw.report source).span.Covers source front piece := by
  obtain ⟨e, ended, tiled, within⟩ := readAll_tiles ⟨source.text.toList, 0⟩
  have tiles : Tiles ⟨source.text.toList, 0⟩ (tokenize source.text).1 e := tiled.mergeTexts
  refine ⟨fun token mem => ?_, tiles.pairwise, textsApart_mergeTexts _, fun i inside => ?_,
    fun flaw mem => ?_⟩
  · obtain ⟨a, b, before, ⟨⟨piece, rest, offset⟩, start, stop, some_byte⟩, -⟩ := tiles.spans mem
    obtain ⟨front, there⟩ := occupies_of_reaches before rest offset
    refine ⟨front, piece, ?_, by rw [start, stop]; exact there⟩
    rintro rfl
    rw [start, stop, offset, byteLength_nil] at some_byte
    omega
  · have whole : e.offset = byteLength source.text.toList := by
      obtain ⟨piece, rest, offset⟩ := tiles.reaches
      rw [ended, List.append_nil] at rest
      rw [offset, Nat.zero_add, ← rest]
    rcases tiles.covers (Nat.zero_le i) (whole ▸ inside) with
      own | ⟨token, mem, ⟨name, attributes, selfClosing, opens, rules⟩, stop, d, before, last, cs, rest⟩
    · exact .inl own
    · have plain : PlainName name.toList := by
        have named := named_tokenize source.text token mem
        rw [opens] at named
        exact named.1
      have feed : d.rest = ['\n'] ++ (d.drop 1).rest := by simp [Cursor.drop, rest]
      have one := offset_drop_newline rest
      obtain ⟨front, there⟩ := occupies_of_reaches before feed one
      rw [one, last] at there
      exact .inr ⟨token, mem, name, attributes, selfClosing, front, opens,
        (rules_named plain).2.2 rules, stop, there⟩
  · obtain ⟨a, b, before, ⟨piece, rest, offset⟩, -, start, stop⟩ := within flaw mem
    obtain ⟨front, there⟩ := occupies_of_reaches before rest offset
    rw [← start, ← stop] at there
    refine ⟨front, piece, there, ?_⟩
    have covered := Source.covers_span there.inside
    rwa [← there.stop, ← there.start] at covered

end Stencil.Markup
