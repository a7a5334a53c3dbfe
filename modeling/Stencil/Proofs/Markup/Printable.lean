import Mathlib.Data.List.Chain
import Stencil.Proofs.Markup.Lexing

/-! # Printable trees

The trees whose markup is read back as it was, and the lexemes of a tree. What printing
gives for printable trees lexes to their lexemes.
-/

namespace Stencil.Markup

def Lexeme.isText : Lexeme → Bool
  | text _ => true
  | _ => false

namespace NodeTree

variable {ι : Type}

def isText (t : NodeTree ι) : Bool :=
  match t.data with
  | .text _ => true
  | _ => false

/-- No two neighbours are texts. -/
def Parted (ts : List (NodeTree ι)) : Prop :=
  ts.IsChain fun s t => ¬(s.isText = true ∧ t.isText = true)

/-- What must hold of an element, its children as such apart, to be read back. -/
structure ElementPrintable (name : String) (attributes : List (String × Value))
    (children : List (NodeTree ι)) : Prop where
  plain : PlainName name.toList
  distinct : (attributes.map Prod.fst).Nodup
  plains : ∀ entry ∈ attributes, PlainName entry.1.toList
  strings : ∀ entry ∈ attributes, ∃ value, entry.2 = .string value
  parted : Parted children
  void : (TagRules.of name).isVoid = true → children = []
  /-- No child ends the element. -/
  unclosed : ∀ t ∈ children, ∀ tag entries, t.data = .element tag entries →
    (TagRules.of name).isClosedBy tag = false
  raw : (TagRules.of name).content = .raw → children = [] ∨
    ∃ id value, children = [node id (.text value) []] ∧ NoClosing name.toList value.toList
  escapable : (TagRules.of name).content = .escapable → children = [] ∨
    ∃ id value, children = [node id (.text value) []]
  newline : (TagRules.of name).skipsNewline = true → ∀ t ts value, children = t :: ts →
    t.data = .text value → ∀ cs, value.toList ≠ '\n' :: cs

/-- Nothing is asked of the content of an element without children. -/
theorem ElementPrintable.childless {name : String} {entries : List (String × Value)}
    (plain : PlainName name.toList) (distinct : (entries.map Prod.fst).Nodup)
    (plains : ∀ entry ∈ entries, PlainName entry.1.toList)
    (strings : ∀ entry ∈ entries, ∃ value, entry.2 = .string value) :
    ElementPrintable name entries ([] : List (NodeTree ι)) where
  plain := plain
  distinct := distinct
  plains := plains
  strings := strings
  parted := .nil
  void := fun _ => rfl
  unclosed := nofun
  raw := fun _ => .inl rfl
  escapable := fun _ => .inl rfl
  newline := nofun

/-- Whatever is written in an element without rules is read in it. -/
theorem ElementPrintable.ordinary {name : String} {attributes : List (String × Value)}
    {children : List (NodeTree ι)} (rules : TagRules.of name = {}) (plain : PlainName name.toList)
    (distinct : (attributes.map Prod.fst).Nodup) (plains : ∀ entry ∈ attributes, PlainName entry.1.toList)
    (strings : ∀ entry ∈ attributes, ∃ value, entry.2 = .string value) (parted : Parted children) :
    ElementPrintable name attributes children where
  plain := plain
  distinct := distinct
  plains := plains
  strings := strings
  parted := parted
  void := by rw [rules]; nofun
  unclosed _ _ _ _ _ := by rw [rules]; rfl
  raw := by rw [rules]; nofun
  escapable := by rw [rules]; nofun
  newline := by rw [rules]; nofun

/-- What can be in an element in which no element is read. -/
theorem ElementPrintable.held {name : String} {attributes : List (String × Value)}
    {children : List (NodeTree ι)} (h : ElementPrintable name attributes children)
    (model : (TagRules.of name).content ≠ .parsable) :
    children = [] ∨ ∃ label value, children = [node label (.text value) []] ∧
      ((TagRules.of name).content = .raw → NoClosing name.toList value.toList) := by
  cases same : (TagRules.of name).content with
  | raw =>
      refine (h.raw same).imp_right ?_
      rintro ⟨label, value, lone, free⟩
      exact ⟨label, value, lone, fun _ => free⟩
  | escapable =>
      refine (h.escapable same).imp_right ?_
      rintro ⟨label, value, lone⟩
      exact ⟨label, value, lone, nofun⟩
  | parsable => exact (model same).elim

mutual

/-- The trees that reading gives back when they are printed. -/
def Printable : NodeTree ι → Prop
  | node _ data children =>
      match data with
      | .element name attributes =>
          ElementPrintable name attributes children ∧ PrintableAll children
      | .text value => value ≠ "" ∧ children = []
      | .comment value => ¬['-', '-', '>'] <:+: value.toList ∧ children = []
      | .doctype value => '>' ∉ value.toList ∧ ¬['-', '-'] <+: value.toList ∧ children = []
      | .fragment => False

def PrintableAll : List (NodeTree ι) → Prop
  | [] => True
  | t :: ts => Printable t ∧ PrintableAll ts

end

mutual

/-- The lexemes of the markup of a tree. -/
def lexemes : NodeTree ι → List Lexeme
  | node _ data children =>
      match data with
      | .element name attributes =>
          .openTag name (attributes.map fun entry => (entry.1, entry.2.text)) false ::
            if (TagRules.of name).isVoid then [] else lexemesAll children ++ [.closeTag name]
      | .text value => [.text value]
      | .comment value => [.comment value]
      | .doctype value => [.doctype value]
      | .fragment => lexemesAll children

def lexemesAll : List (NodeTree ι) → List Lexeme
  | [] => []
  | t :: ts => lexemes t ++ lexemesAll ts

end

theorem ElementPrintable.plains_text {name : String} {attributes : List (String × Value)}
    {children : List (NodeTree ι)} (h : ElementPrintable name attributes children) :
    ∀ entry ∈ attributes.map fun entry => (entry.1, entry.2.text), PlainName entry.1.toList := by
  intro entry mem
  obtain ⟨e, inside, rfl⟩ := List.mem_map.1 mem
  exact h.plains e inside

/-! ## Written trees -/

section

variable (spell : String × String → List Char)

mutual

/-- The markup of a tree, with `spell` for what is written behind the names of attributes. -/
def written (raw : Bool) : NodeTree ι → List Char
  | node _ data children =>
      match data with
      | .element name attributes =>
          writtenOpening spell name.toList (attributes.map fun entry => (entry.1, entry.2.text)) ++
            if (TagRules.of name).isVoid then []
            else writtenAll data.isRaw children ++ writtenClosing name.toList
      | .text value => if raw then value.toList else value.toList.flatMap escapedTextChar
      | .comment value => '<' :: '!' :: '-' :: '-' :: (value.toList ++ ['-', '-', '>'])
      | .doctype value => '<' :: '!' :: (value.toList ++ ['>'])
      | .fragment => writtenAll raw children

def writtenAll (raw : Bool) : List (NodeTree ι) → List Char
  | [] => []
  | t :: ts => written raw t ++ writtenAll raw ts

end

end

/-! ## Readable trees -/

/-- What reading needs of an element that is written with `spell`, its children as such apart. The
names of the attributes may be any that are read back. -/
structure ElementReadable (spell : String × String → List Char) (name : String)
    (attributes : List (String × Value)) (children : List (NodeTree ι)) : Prop where
  plain : PlainName name.toList
  distinct : (attributes.map Prod.fst).Nodup
  reads : ReadsBack spell (attributes.map fun entry => (entry.1, entry.2.text))
  strings : ∀ entry ∈ attributes, ∃ value, entry.2 = .string value
  parted : Parted children
  void : (TagRules.of name).isVoid = true → children = []
  /-- No child ends the element. -/
  unclosed : ∀ t ∈ children, ∀ tag entries, t.data = .element tag entries →
    (TagRules.of name).isClosedBy tag = false
  raw : (TagRules.of name).content = .raw → children = [] ∨
    ∃ id value, children = [node id (.text value) []] ∧ NoClosing name.toList value.toList
  escapable : (TagRules.of name).content = .escapable → children = [] ∨
    ∃ id value, children = [node id (.text value) []]
  newline : (TagRules.of name).skipsNewline = true → ∀ t ts value, children = t :: ts →
    t.data = .text value → ∀ cs, value.toList ≠ '\n' :: cs

mutual

/-- The trees that reading gives back when they are written with `spell`. -/
def Readable (spell : String × String → List Char) : NodeTree ι → Prop
  | node _ data children =>
      match data with
      | .element name attributes =>
          ElementReadable spell name attributes children ∧ ReadableAll spell children
      | .text value => value ≠ "" ∧ children = []
      | .comment value => ¬['-', '-', '>'] <:+: value.toList ∧ children = []
      | .doctype value => '>' ∉ value.toList ∧ ¬['-', '-'] <+: value.toList ∧ children = []
      | .fragment => False

def ReadableAll (spell : String × String → List Char) : List (NodeTree ι) → Prop
  | [] => True
  | t :: ts => Readable spell t ∧ ReadableAll spell ts

end

theorem ElementPrintable.readable {spell : String × String → List Char} (legible : Legible spell)
    {name : String} {attributes : List (String × Value)} {children : List (NodeTree ι)}
    (h : ElementPrintable name attributes children) :
    ElementReadable spell name attributes children :=
  { h with reads := readsBack_of_legible legible h.plains_text }

mutual

/-- Printable trees are readable however the values of their attributes are legibly written. -/
theorem Printable.readable {spell : String × String → List Char} (legible : Legible spell) :
    (t : NodeTree ι) → t.Printable → t.Readable spell
  | node label data children, h => by
      cases data with
      | element name attributes =>
          exact ⟨h.1.readable legible, PrintableAll.readable legible children h.2⟩
      | text | comment | doctype | fragment => exact h

theorem PrintableAll.readable {spell : String × String → List Char} (legible : Legible spell) :
    (ts : List (NodeTree ι)) → PrintableAll ts → ReadableAll spell ts
  | [], _ => trivial
  | t :: ts, h => ⟨Printable.readable legible t h.1, PrintableAll.readable legible ts h.2⟩

end

theorem toList_printOpenTag (name : String) (attributes : List (String × Value)) :
    (printOpenTag name attributes).toList = writtenOpening quoted name.toList
      (attributes.map fun entry => (entry.1, entry.2.text)) := by
  have entries : (String.join (attributes.map printAttribute)).toList =
      (attributes.map fun entry => (entry.1, entry.2.text)).flatMap (writtenAttribute quoted) := by
    rw [String.toList_join, List.flatMap_map, List.flatMap_map]
    congr 1
    funext entry
    simp [printAttribute, writtenAttribute, quoted, escapeAttribute]
  simp [printOpenTag, writtenOpening, entries]

mutual

/-- Printing puts the values of all attributes between quotes. -/
theorem toList_print (raw : Bool) : (t : NodeTree ι) → (t.print raw).toList = t.written quoted raw
  | node label data children => by
      cases data with
      | element name attributes =>
          cases void : (TagRules.of name).isVoid with
          | true => simp [print, written, void, toList_printOpenTag]
          | false =>
              have inside := toList_printAll (NodeData.element name attributes).isRaw children
              simp [print, written, void, toList_printOpenTag, inside, writtenClosing]
      | text value => cases raw <;> simp [print, written, escapeText]
      | comment value => simp [print, written]
      | doctype value => simp [print, written]
      | fragment =>
          have inside := toList_printAll raw children
          simp [print, written, inside]

theorem toList_printAll (raw : Bool) : (ts : List (NodeTree ι)) →
    (printAll raw ts).toList = writtenAll quoted raw ts
  | [] => by simp [printAll, writtenAll]
  | t :: ts => by
      have here := toList_print raw t
      have further := toList_printAll raw ts
      simp [printAll, writtenAll, here, further]

end

/-! ## How written trees begin -/

section

variable {spell : String × String → List Char}

theorem startsMarkup_opening (spell : String × String → List Char) {name : List Char}
    (plain : PlainName name) (entries : List (String × String)) (rest : List Char) :
    startsMarkup (writtenOpening spell name entries ++ rest) = true := by
  obtain ⟨c, cs, rfl, letter⟩ := plain.isAlpha
  simp [writtenOpening, startsMarkup, startsOpenTag, letter]

theorem startsMarkup_closing {name : List Char} (plain : PlainName name) (rest : List Char) :
    startsMarkup (writtenClosing name ++ rest) = true := by
  obtain ⟨c, cs, rfl, letter⟩ := plain.isAlpha
  simp [writtenClosing, startsMarkup, startsCloseTag, letter]

/-- Texts end where any other tree begins. -/
theorem startsMarkup_written {t : NodeTree ι} (h : t.Readable spell) (other : t.isText = false)
    (rest : List Char) :
    startsMarkup (t.written spell false ++ rest) = true := by
  obtain ⟨label, data, children⟩ := t
  cases data with
  | element name attributes =>
      rw [written, List.append_assoc]
      exact startsMarkup_opening spell h.1.plain _ _
  | text value => cases other
  | comment value => simp [written, startsMarkup, startsDeclaration]
  | doctype value => simp [written, startsMarkup, startsDeclaration]
  | fragment => exact h.elim

/-! ## Lexing -/

theorem ends_writtenAll {ts : List (NodeTree ι)} (h : ReadableAll spell ts) {rest : List Char}
    (ended : Ends rest) (other : ∀ t ∈ ts.head?, t.isText = false) :
    Ends (writtenAll spell false ts ++ rest) := by
  cases ts with
  | nil => simpa [writtenAll] using ended
  | cons t ts =>
      have starts := startsMarkup_written h.1 (other t rfl) (writtenAll spell false ts ++ rest)
      right
      simpa [writtenAll] using starts

theorem keepsNewline_append {rules : TagRules} {written rest : List Char}
    (h : rules.skipsNewline = true → ∀ cs, written ≠ '\n' :: cs) (k : KeepsNewline rules rest) :
    KeepsNewline rules (written ++ rest) := by
  intro skips cs begins
  cases written with
  | nil => exact k skips cs begins
  | cons c written =>
      obtain ⟨rfl, -⟩ := List.cons.inj begins
      exact h skips written rfl

theorem keepsNewline_of_startsMarkup (rules : TagRules) {rest : List Char}
    (h : startsMarkup rest = true) : KeepsNewline rules rest := by
  rintro - cs rfl
  cases h

/-- What is dropped behind an open tag is no part of readable content. -/
theorem keepsNewline_writtenAll {name : String} {attributes : List (String × Value)}
    {ts : List (NodeTree ι)} (h : ElementReadable spell name attributes ts)
    (all : ReadableAll spell ts) (rest : List Char) : KeepsNewline (TagRules.of name)
      (writtenAll spell false ts ++ (writtenClosing name.toList ++ rest)) := by
  have closing := keepsNewline_of_startsMarkup (TagRules.of name) (startsMarkup_closing h.plain rest)
  cases ts with
  | nil => simpa [writtenAll] using closing
  | cons t ts =>
      rw [writtenAll, List.append_assoc]
      cases text : t.isText with
      | false => exact keepsNewline_of_startsMarkup _ (startsMarkup_written all.1 text _)
      | true =>
          obtain ⟨label, data, children⟩ := t
          cases data with
          | text value =>
              have kept : (TagRules.of name).skipsNewline = true →
                  ∀ cs, (node label (.text value) children).written spell false ≠ '\n' :: cs := by
                intro skips
                have own := h.newline skips (node label (.text value) children) ts value rfl rfl
                simpa [written] using escapedText_ne_newline own
              have some_text : (node label (.text value) children).written spell false ≠ [] := by
                intro nothing
                have back := decode_escapedText value.toList
                simp only [written, Bool.false_eq_true, if_false] at nothing
                rw [nothing, decode_nil] at back
                exact all.1.1 (String.toList_inj.1 back.symm)
              intro skips cs begins
              cases same : (node label (.text value) children).written spell false with
              | nil => exact some_text same
              | cons c more =>
                  rw [same] at begins
                  obtain ⟨rfl, -⟩ := List.cons.inj begins
                  exact kept skips more same
          | element | comment | doctype | fragment => cases text

/-- The content of an element that is a single text or nothing. -/
theorem exists_textContent {name : String} {attributes : List (String × Value)}
    {ts : List (NodeTree ι)} (h : ElementReadable spell name attributes ts)
    (all : ReadableAll spell ts)
    (model : (TagRules.of name).content ≠ .parsable) :
    ∃ value : List Char, lexemesAll ts = contentLexemes value ∧
      writtenAll spell true ts = value ∧
      writtenAll spell false ts = value.flatMap escapedTextChar ∧
      ((TagRules.of name).content = .raw → NoClosing name.toList value) ∧
      ((TagRules.of name).skipsNewline = true → ∀ cs, value ≠ '\n' :: cs) := by
  have empty : NoClosing name.toList [] := noClosing_of_not_mem (by simp)
  have single : ts = [] ∨ ∃ id value, ts = [node id (.text value) []] ∧
      ((TagRules.of name).content = .raw → NoClosing name.toList value.toList) := by
    cases content : (TagRules.of name).content with
    | raw => exact (h.raw content).imp_right fun ⟨id, value, same, free⟩ => ⟨id, value, same, fun _ => free⟩
    | escapable => exact (h.escapable content).imp_right fun ⟨id, value, same⟩ => ⟨id, value, same, nofun⟩
    | parsable => exact (model content).elim
  rcases single with rfl | ⟨id, value, rfl, free⟩
  · exact ⟨[], rfl, rfl, rfl, fun _ => empty, fun _ _ => nofun⟩
  · have some_text : value.toList ≠ [] := fun nothing => all.1.1 (String.toList_inj.1 nothing)
    refine ⟨value.toList, ?_, ?_, ?_, free, fun skips => h.newline skips _ _ value rfl rfl⟩
    · simp [lexemesAll, lexemes, contentLexemes, some_text]
    · simp [writtenAll, written]
    · simp [writtenAll, written]

theorem lexes_textContent {name : String} {attributes : List (String × Value)}
    {ts : List (NodeTree ι)} (h : ElementReadable spell name attributes ts)
    (all : ReadableAll spell ts)
    (notVoid : (TagRules.of name).isVoid = false) (model : (TagRules.of name).content ≠ .parsable)
    (rest : List Char) :
    Lexes (writtenOpening spell name.toList (attributes.map fun entry => (entry.1, entry.2.text)) ++
        writtenAll spell ((TagRules.of name).content == .raw) ts) (writtenClosing name.toList ++ rest)
      (.openTag name (attributes.map fun entry => (entry.1, entry.2.text)) false ::
        lexemesAll ts) := by
  obtain ⟨value, lexemes, raw, escaped, free, newline⟩ := exists_textContent h all model
  have closing := keepsNewline_of_startsMarkup (TagRules.of name) (startsMarkup_closing h.plain rest)
  rw [lexemes]
  cases content : (TagRules.of name).content with
  | raw =>
      have whole : writtenAll spell (ContentModel.raw == ContentModel.raw) ts =
          writtenAll spell true ts := rfl
      rw [whole, raw]
      exact lexes_content h.reads h.plain notVoid (.inl ⟨content, rfl⟩) (free content) rest
        (keepsNewline_append newline closing)
  | escapable =>
      have whole : writtenAll spell (ContentModel.escapable == ContentModel.raw) ts =
          writtenAll spell false ts := rfl
      rw [whole, escaped]
      exact lexes_content h.reads h.plain notVoid (.inr ⟨content, rfl⟩)
        (noClosing_of_not_mem (not_mem_escapedText value)) rest
        (keepsNewline_append (fun skips => escapedText_ne_newline (newline skips)) closing)
  | parsable => exact (model content).elim

mutual

theorem lexes_written : (t : NodeTree ι) → t.Readable spell →
    (rest : List Char) → (t.isText = true → Ends rest) →
    Lexes (t.written spell false) rest t.lexemes
  | node label data children, h, rest, ended => by
      cases data with
      | text value =>
          have lexed := lexes_text h.1 (ended rfl)
          simpa [written, lexemes] using lexed
      | comment value =>
          have lexed := lexes_comment h.1 rest
          simpa [written, lexemes] using lexed
      | doctype value =>
          have lexed := lexes_doctype h.1 h.2.1 rest
          simpa [written, lexemes] using lexed
      | fragment => exact h.elim
      | element name attributes =>
          obtain ⟨own, all⟩ := h
          have closing := lexes_closing own.plain rest
          cases void : (TagRules.of name).isVoid with
          | true =>
              have lexed := lexes_opening own.reads own.plain rest (.inl void)
              simpa [written, lexemes, void] using lexed
          | false =>
              have whole : (node label (.element name attributes) children).written spell false =
                  writtenOpening spell name.toList
                      (attributes.map fun entry => (entry.1, entry.2.text)) ++
                    writtenAll spell ((TagRules.of name).content == .raw) children ++
                      writtenClosing name.toList := by
                simp [written, void, NodeData.isRaw]
              have parts : (node label (.element name attributes) children).lexemes =
                  (.openTag name (attributes.map fun entry => (entry.1, entry.2.text)) false ::
                    lexemesAll children) ++ [.closeTag name] := by
                simp [lexemes, void]
              rw [whole, parts]
              refine Lexes.append ?_ closing
              by_cases model : (TagRules.of name).content = .parsable
              · have inside := lexes_writtenAll children all own.parted
                  (writtenClosing name.toList ++ rest) (.inr (startsMarkup_closing own.plain rest))
                have opening := lexes_opening own.reads own.plain _
                  (.inr ⟨model, keepsNewline_writtenAll own all rest⟩)
                have notRaw : ((TagRules.of name).content == ContentModel.raw) = false := by
                  rw [model]
                  rfl
                rw [notRaw]
                exact opening.append inside
              · exact lexes_textContent own all void model rest

theorem lexes_writtenAll : (ts : List (NodeTree ι)) → ReadableAll spell ts →
    Parted ts → (rest : List Char) → Ends rest →
    Lexes (writtenAll spell false ts) rest (lexemesAll ts)
  | [], _, _, rest, _ => by simpa [writtenAll, lexemesAll] using lexes_nil rest
  | t :: ts, h, parted, rest, ended => by
      have further := lexes_writtenAll ts h.2 parted.tail rest ended
      have here := lexes_written t h.1 (writtenAll spell false ts ++ rest) fun text =>
        ends_writtenAll h.2 ended fun s first => by
          have apart := parted.rel_head? first
          simpa [text] using apart
      simpa [writtenAll, lexemesAll] using here.append further

end

end

end NodeTree

end Stencil.Markup
