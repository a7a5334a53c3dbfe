import Mathlib.Data.List.Induction
import Stencil.Proofs.Document.Operation
import Stencil.Proofs.Markup.Printable

/-! # Round trip

Reading the markup of readable trees, and so of printable ones, reports nothing and gives back
the trees. The tokens are those of the trees, no two texts among them are merged, and each tree
grows again from its own tokens at its place.
-/

namespace Stencil.Markup

open NodeTree

variable {ι : Type} {spell : String × String → List Char}

/-! ## Merging -/

/-- No two neighbours are texts. -/
def TextsApart (ls : List Lexeme) : Prop := ls.IsChain fun a b => ¬(a.isText = true ∧ b.isText = true)

theorem mergeTexts_eq {tokens : List Token} (h : TextsApart (tokens.map Token.lexeme)) :
    mergeTexts tokens = tokens := by
  induction tokens with
  | nil => rfl
  | cons token tokens ih =>
      have further := ih h.tail
      rw [mergeTexts, further]
      split
      · rename_i tokens value more start stop others text
        have apart := h.rel_head? (y := .text more) rfl
        exact (apart ⟨by rw [text]; rfl, rfl⟩).elim
      · rfl

theorem head?_lexemes {t : NodeTree ι} (h : t.Readable spell) :
    ∃ l ls, t.lexemes = l :: ls ∧ l.isText = t.isText := by
  obtain ⟨label, data, children⟩ := t
  cases data with
  | fragment => exact h.elim
  | element | text | comment | doctype => exact ⟨_, _, rfl, rfl⟩

theorem getLast?_lexemes {t : NodeTree ι} (h : t.Readable spell) :
    ∃ ls l, t.lexemes = ls ++ [l] ∧ l.isText = t.isText := by
  obtain ⟨label, data, children⟩ := t
  cases data with
  | fragment => exact h.elim
  | text | comment | doctype => exact ⟨[], _, rfl, rfl⟩
  | element name attributes =>
      simp only [lexemes]
      split
      · exact ⟨[], _, rfl, rfl⟩
      · exact ⟨_, .closeTag name, (List.cons_append ..).symm, rfl⟩

mutual

theorem textsApart_lexemes : (t : NodeTree ι) → t.Readable spell → TextsApart t.lexemes
  | node label data children, h => by
      cases data with
      | fragment => exact h.elim
      | text | comment | doctype => exact .singleton _
      | element name attributes =>
          have inside := textsApart_lexemesAll children h.2 h.1.parted
          simp only [lexemes]
          split
          · exact .singleton _
          · refine List.IsChain.cons (inside.append (.singleton _) ?_) fun l _ both => ?_
            · rintro l - m last ⟨-, text⟩
              cases last
              cases text
            · cases both.1

theorem textsApart_lexemesAll : (ts : List (NodeTree ι)) → ReadableAll spell ts → Parted ts →
    TextsApart (lexemesAll ts)
  | [], _, _ => .nil
  | t :: ts, h, parted => by
      have here := textsApart_lexemes t h.1
      have further := textsApart_lexemesAll ts h.2 parted.tail
      refine here.append further fun l last m first => ?_
      obtain ⟨ls, l', whole, ends⟩ := getLast?_lexemes h.1
      rw [whole, List.getLast?_concat] at last
      cases last
      cases ts with
      | nil => cases first
      | cons s ts =>
          obtain ⟨m', ms, same, begins⟩ := head?_lexemes h.2.1
          rw [lexemesAll, same] at first
          cases first
          rw [ends, begins]
          exact parted.rel_head? rfl

end

/-! ## Growing -/

namespace Growth

/-- The innermost open element is ended by none of the trees. -/
def Admits (g : Growth) (ts : List (NodeTree ι)) : Prop :=
  ∀ top ∈ g.opened.head?, ∀ t ∈ ts, ∀ tag entries, t.data = .element tag entries →
    (TagRules.of top.name).isClosedBy tag = false

theorem admits_add {g : Growth} {ts : List (NodeTree ι)} (h : g.Admits ts) (t : NodeTree Unit) :
    (g.add t).Admits ts := by
  unfold Admits at h ⊢
  unfold add
  split
  · rename_i none_open
    rwa [none_open] at h ⊢
  · rename_i top rest some_open
    rw [some_open] at h
    rintro _ ⟨⟩
    exact h top rfl

/-- Adds trees one after the other. -/
def addAll (g : Growth) (ts : List (NodeTree Unit)) : Growth := ts.foldl (fun g t => g.add t) g

theorem addAll_opened (top : OpenElement) (rest : List OpenElement) (ts : List (NodeTree Unit)) :
    ∀ g : Growth, g.opened = top :: rest →
      g.addAll ts =
        { g with opened := { top with children := ts.reverse ++ top.children } :: rest } := by
  induction ts generalizing top with
  | nil =>
      intro g some_open
      obtain ⟨opened, outer, flaws⟩ := g
      cases some_open
      rfl
  | cons t ts ih =>
      intro g some_open
      have added : (g.add t).opened = { top with children := t :: top.children } :: rest := by
        simp [add, some_open]
      rw [show g.addAll (t :: ts) = (g.add t).addAll ts from rfl, ih _ _ added]
      simp [add, some_open]

theorem addAll_outer (ts : List (NodeTree Unit)) :
    ∀ g : Growth, g.opened = [] → g.addAll ts = { g with outer := ts.reverse ++ g.outer } := by
  induction ts with
  | nil => exact fun _ _ => rfl
  | cons t ts ih =>
      intro g none_open
      have added : (g.add t).opened = [] := by simp [add, none_open]
      rw [show g.addAll (t :: ts) = (g.add t).addAll ts from rfl, ih _ added]
      simp [add, none_open]

/-- A further attribute counts if its name is new. -/
theorem firstAttributes_concat (attributes : List (String × String)) (name value : String) :
    firstAttributes (attributes ++ [(name, value)]) =
      if (firstAttributes attributes).any (·.1 == name) then firstAttributes attributes
      else firstAttributes attributes ++ [(name, .string value)] := by
  unfold firstAttributes
  rw [List.foldl_append]
  rfl

theorem firstAttributes_eq {attributes : List (String × Value)}
    (distinct : (attributes.map Prod.fst).Nodup)
    (strings : ∀ entry ∈ attributes, ∃ value, entry.2 = .string value) :
    firstAttributes (attributes.map fun entry => (entry.1, entry.2.text)) = attributes := by
  induction attributes using List.reverseRecOn with
  | nil => rfl
  | append_singleton attributes entry ih =>
      rw [List.map_append, List.map_singleton, List.nodup_append] at distinct
      obtain ⟨before, -, apart⟩ := distinct
      have first := ih before fun e mem => strings e (List.mem_append_left _ mem)
      obtain ⟨value, string⟩ := strings entry (by simp)
      have new : attributes.any (·.1 == entry.1) = false := by
        rw [List.any_eq_false]
        intro e mem same
        exact apart e.1 (List.mem_map_of_mem mem) entry.1 (by simp) (beq_iff_eq.1 same)
      have own : (entry.1, Value.string entry.2.text) = entry := by
        obtain ⟨name, value⟩ := entry
        cases string
        rfl
      rw [List.map_append, List.map_singleton, firstAttributes_concat, first, new, own]
      rfl

theorem step_openTag {g : Growth} {token : Token} {name : String}
    {attributes : List (String × Value)} {children : List (NodeTree ι)}
    (lexeme : token.lexeme = .openTag name (attributes.map fun entry => (entry.1, entry.2.text)) false)
    (h : ElementReadable spell name attributes children)
    (admits : ∀ top ∈ g.opened.head?, (TagRules.of top.name).isClosedBy name = false) :
    g.step token =
      if (TagRules.of name).isVoid then g.add (node () (.element name attributes) [])
      else { g with opened := ⟨name, attributes, token.start, token.stop, []⟩ :: g.opened } := by
  have none_ended : g.opened.takeWhile (fun e => (TagRules.of e.name).isClosedBy name) = [] := by
    cases some_open : g.opened with
    | nil => rfl
    | cons top rest =>
        have stays := admits top (by rw [some_open]; rfl)
        simp [stays]
  simp only [step, lexeme, none_ended, firstAttributes_eq h.distinct h.strings, Bool.or_false]
  rfl

theorem step_closeTag {g : Growth} {token : Token} {name : String} {top : OpenElement}
    {rest : List OpenElement} (lexeme : token.lexeme = .closeTag name)
    (notVoid : (TagRules.of name).isVoid = false) (some_open : g.opened = top :: rest)
    (same : top.name = name) : g.step token = { g with opened := rest }.add top.close := by
  have found : g.opened.findIdx? (·.name == name) = some 0 := by
    rw [some_open, List.findIdx?_cons, same]
    simp
  simp only [step, lexeme, notVoid, found, Bool.false_eq_true, if_false, abandon]
  rw [closeTop, some_open]

mutual

/-- A tree grows from its tokens at the place that has been reached. -/
theorem grows : (t : NodeTree ι) → t.Readable spell → (g : Growth) → g.Admits [t] →
    (tokens : List Token) → tokens.map Token.lexeme = t.lexemes →
    tokens.foldl step g = g.add t.shape
  | node label data children, h, g, admits, tokens, same => by
      cases data with
      | fragment => exact h.elim
      | text value =>
          obtain ⟨_, rfl⟩ := h
          obtain ⟨token, tokens, rfl, lexeme, nothing⟩ := List.map_eq_cons_iff.1 same
          obtain rfl := List.map_eq_nil_iff.1 nothing
          simp [step, lexeme, shape_node]
      | comment value =>
          obtain ⟨_, rfl⟩ := h
          obtain ⟨token, tokens, rfl, lexeme, nothing⟩ := List.map_eq_cons_iff.1 same
          obtain rfl := List.map_eq_nil_iff.1 nothing
          simp [step, lexeme, shape_node]
      | doctype value =>
          obtain ⟨_, _, rfl⟩ := h
          obtain ⟨token, tokens, rfl, lexeme, nothing⟩ := List.map_eq_cons_iff.1 same
          obtain rfl := List.map_eq_nil_iff.1 nothing
          simp [step, lexeme, shape_node]
      | element name attributes =>
          obtain ⟨own, all⟩ := h
          obtain ⟨token, tokens, rfl, lexeme, further⟩ := List.map_eq_cons_iff.1 same
          have opens := step_openTag (g := g) lexeme own fun top first =>
            admits top first _ (List.mem_singleton_self _) name attributes rfl
          rw [List.foldl_cons, opens]
          cases void : (TagRules.of name).isVoid with
          | true =>
              rw [void, if_pos rfl] at further
              obtain rfl := List.map_eq_nil_iff.1 further
              obtain rfl := own.void void
              simp [shape_node]
          | false =>
              rw [void, if_neg (by simp)] at further
              obtain ⟨inside, closing, rfl, content, last⟩ := List.map_eq_append_iff.1 further
              obtain ⟨close, nothing, rfl, closes, none_left⟩ := List.map_eq_cons_iff.1 last
              obtain rfl := List.map_eq_nil_iff.1 none_left
              have admitted : Admits { g with
                  opened := ⟨name, attributes, token.start, token.stop, []⟩ :: g.opened } children := by
                rintro _ ⟨⟩
                exact own.unclosed
              have filled := growsAll children all _ admitted inside content
              rw [if_neg (by simp), List.foldl_append, filled, addAll_opened _ _ _ _ rfl,
                List.foldl_cons, List.foldl_nil, step_closeTag closes void rfl rfl]
              simp [OpenElement.close, shape_node]

theorem growsAll : (ts : List (NodeTree ι)) → ReadableAll spell ts → (g : Growth) → g.Admits ts →
    (tokens : List Token) → tokens.map Token.lexeme = lexemesAll ts →
    tokens.foldl step g = g.addAll (ts.map shape)
  | [], _, g, _, tokens, same => by
      obtain rfl := List.map_eq_nil_iff.1 same
      rfl
  | t :: ts, h, g, admits, tokens, same => by
      obtain ⟨here, further, rfl, first, others⟩ := List.map_eq_append_iff.1 same
      have own : g.Admits [t] := fun top open_ s mem => by
        rw [List.mem_singleton] at mem
        exact admits top open_ s (mem ▸ List.mem_cons_self)
      have rest : g.Admits ts := fun top open_ s mem =>
        admits top open_ s (List.mem_cons_of_mem t mem)
      rw [List.foldl_append, grows t h.1 g own here first,
        growsAll ts h.2 _ (admits_add rest t.shape) further others]
      rfl

end

end Growth

/-! ## The round trip -/

/-- What lexes to lexemes among which no two texts are neighbours is read as these lexemes. -/
theorem tokenize_of_apart {text : String} {lexemes : List Lexeme} (apart : TextsApart lexemes)
    (lexed : Lexes text.toList [] lexemes) :
    ∃ tokens, tokenize text = (tokens, []) ∧ tokens.map Token.lexeme = lexemes := by
  obtain ⟨o, tokens, same, read⟩ := lexed 0
  have ended : readAll ⟨[], o⟩ = ([], []) := by rw [readAll, dif_pos rfl]
  rw [List.append_nil, ended, List.append_nil] at read
  refine ⟨tokens, ?_, same⟩
  unfold tokenize
  rw [read]
  dsimp only
  rw [mergeTexts_eq (same ▸ apart)]

theorem tokenize_of_lexes {text : String} {ts : List (NodeTree ι)} (parted : Parted ts)
    (all : ReadableAll spell ts) (lexed : Lexes text.toList [] (lexemesAll ts)) :
    ∃ tokens, tokenize text = (tokens, []) ∧ tokens.map Token.lexeme = lexemesAll ts :=
  tokenize_of_apart (textsApart_lexemesAll ts all parted) lexed

/-- Reading what lexes to the lexemes of readable trees gives the trees. -/
theorem parse_of_lexes {text : String} {ts : List (NodeTree ι)} (parted : Parted ts)
    (all : ReadableAll spell ts) (lexed : Lexes text.toList [] (lexemesAll ts)) :
    parse text = (ts.map shape, []) := by
  obtain ⟨tokens, tokenized, lexemes⟩ := tokenize_of_lexes parted all lexed
  have grown := Growth.growsAll ts all Growth.start nofun tokens lexemes
  rw [Growth.addAll_outer _ _ rfl] at grown
  unfold parse
  rw [tokenized]
  dsimp only
  rw [grown]
  simp [Growth.start, Growth.abandon]

/-- Reading the markup of readable trees gives the trees. -/
theorem parse_of_readable {ts : List (NodeTree ι)} (parted : Parted ts)
    (all : ReadableAll quoted ts) : parse (printAll false ts) = (ts.map shape, []) := by
  have lexed := lexes_writtenAll ts all parted [] (.inl rfl)
  rw [← toList_printAll] at lexed
  exact parse_of_lexes parted all lexed

/-- Reading the markup of printable trees gives the trees. -/
theorem parse_printAll {ts : List (NodeTree ι)} (parted : Parted ts) (all : PrintableAll ts) :
    parse (printAll false ts) = (ts.map shape, []) :=
  parse_of_readable parted (all.readable legible_quoted)

/-- In every document, whatever has been done to it, reading the markup of printable trees
reports nothing and leaves a fragment with these trees. -/
theorem plantMarkup_printAll (name : String) (strict : Bool) (ops : List Operation)
    {ts : List (NodeTree ι)} (parted : Parted ts) (all : PrintableAll ts) :
    ∃ root d' t,
      Document.plantMarkup (printAll false ts) (Operation.run { name := name, strict := strict } ops) =
        .ok (root, []) d' ∧
      d'.tree root = .ok t ∧ t.shape = node () .fragment (ts.map shape) := by
  have accounted := Operation.lasting_run Document.lasting_accounted ops
    (Document.accounted_empty name strict)
  obtain ⟨t, label, planted⟩ := Document.planted_plant
    (node () .fragment (parse (printAll false ts)).1) none _ accounted
  have run := Document.plantMarkup_run accounted (printAll false ts)
  have read := parse_printAll parted all
  rw [read] at planted run label
  refine ⟨_, _, t, run, ?_, ?_⟩
  · rw [← label]
    exact Document.tree_of_stands planted.stands planted.nodup
  · rw [planted.shape, shape_eq_self]

/-- A list item with a quoted attribute, a comment and a script. -/
theorem plantMarkup_printAll_mixed :
    let ts : List (NodeTree Unit) :=
      [node () (.element "li" [("id", .string "a&\"b")]) [node () (.text "x < y") []],
        node () (.comment " - ") [], node () (.element "script" []) [node () (.text "a && b") []]]
    Parted ts ∧ PrintableAll ts ∧ ∃ root d' t,
      Document.plantMarkup (printAll false ts) (Operation.run { name := "", strict := true } []) =
        .ok (root, []) d' ∧
      d'.tree root = .ok t ∧ t.shape = node () .fragment (ts.map shape) := by
  intro ts
  have parted : Parted ts := by simp [ts, Parted, isText, data]
  have item : ElementPrintable "li" [("id", .string "a&\"b")] [node () (.text "x < y") []] := {
    plain := .of_all rfl (c := 'l') rfl rfl
    distinct := by decide
    plains := List.forall_mem_singleton.2 (.of_all rfl (c := 'i') rfl rfl)
    strings := List.forall_mem_singleton.2 ⟨_, rfl⟩
    parted := .singleton _
    void := by decide
    unclosed := List.forall_mem_singleton.2 fun _ _ same => by cases same
    raw := fun raw => absurd raw (by decide)
    escapable := fun escapable => absurd escapable (by decide)
    newline := fun skips => absurd skips (by decide) }
  have script : ElementPrintable "script" [] [node () (.text "a && b") []] := {
    plain := .of_all rfl (c := 's') rfl rfl
    distinct := by decide
    plains := List.forall_mem_nil _
    strings := List.forall_mem_nil _
    parted := .singleton _
    void := by decide
    unclosed := List.forall_mem_singleton.2 fun _ _ same => by cases same
    raw := fun _ => .inr ⟨(), "a && b", rfl, noClosing_of_not_mem (by decide)⟩
    escapable := fun escapable => absurd escapable (by decide)
    newline := fun skips => absurd skips (by decide) }
  have all : PrintableAll ts :=
    ⟨⟨item, ⟨by decide, rfl⟩, trivial⟩, ⟨by decide, rfl⟩, ⟨script, ⟨by decide, rfl⟩, trivial⟩, trivial⟩
  exact ⟨parted, all, plantMarkup_printAll "" true [] parted all⟩

end Stencil.Markup
