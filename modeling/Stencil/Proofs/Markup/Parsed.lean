import Stencil.Proofs.Markup.Growth
import Stencil.Proofs.Markup.Lexemes

/-! # Parsed trees

What holds of every tree that is read from markup, however much of the markup had to be mended:
what its names and texts may hold, that no child ends its parent, and that the content of an
element that is read as it stands is a single text.
-/

namespace Stencil.Markup

open NodeTree

/-! ## Trees -/

namespace NodeTree

variable {ι : Type}

/-- What holds of an element that has been read, its children as such apart. -/
structure ElementParsed (name : String) (attributes : List (String × Value))
    (children : List (NodeTree ι)) : Prop where
  plain : PlainName name.toList
  distinct : (attributes.map Prod.fst).Nodup
  named : ∀ entry ∈ attributes, AttributeName entry.1.toList
  strings : ∀ entry ∈ attributes, ∃ value, entry.2 = .string value
  void : (TagRules.of name).isVoid = true → children = []
  /-- No child ends the element. -/
  unclosed : ∀ t ∈ children, ∀ tag entries, t.data = .element tag entries →
    (TagRules.of name).isClosedBy tag = false
  content : (TagRules.of name).content ≠ .parsable → children = [] ∨
    ∃ id value, children = [node id (.text value) []] ∧
      ((TagRules.of name).content = .raw → NoClosing name.toList value.toList)

mutual

/-- What holds of a tree that has been read. -/
def Parsed : NodeTree ι → Prop
  | node _ data children =>
      match data with
      | .element name attributes => ElementParsed name attributes children ∧ ParsedAll children
      | .text value => value ≠ "" ∧ children = []
      | .comment value => ¬['-', '-', '>'] <:+: value.toList ∧ children = []
      | .doctype value => '>' ∉ value.toList ∧ children = []
      | .fragment => False

def ParsedAll : List (NodeTree ι) → Prop
  | [] => True
  | t :: ts => Parsed t ∧ ParsedAll ts

end

theorem parsedAll_iff {ts : List (NodeTree ι)} : ParsedAll ts ↔ ∀ t ∈ ts, t.Parsed := by
  induction ts with
  | nil => simp [ParsedAll]
  | cons t ts ih => simp [ParsedAll, ih]

end NodeTree

/-! ## Growing -/

namespace OpenElement

/-- The open element, as it would be closed here, and that it may have children. -/
structure Parsed (e : OpenElement) : Prop where
  closed : e.close.Parsed
  open_ : (TagRules.of e.name).isVoid = false

/-- The tree may become the next child of the element. -/
structure Takes (e : OpenElement) (t : NodeTree Unit) : Prop where
  unclosed : ∀ tag entries, t.data = .element tag entries → (TagRules.of e.name).isClosedBy tag = false
  content : (TagRules.of e.name).content ≠ .parsable → e.children = [] ∧
    ∃ value, t = node () (.text value) [] ∧
      ((TagRules.of e.name).content = .raw → NoClosing e.name.toList value.toList)

theorem Parsed.take {e : OpenElement} (h : e.Parsed) {t : NodeTree Unit} (ht : t.Parsed)
    (takes : e.Takes t) : Parsed { e with children := t :: e.children } := by
  obtain ⟨own, all⟩ := h.closed
  have listed {s : NodeTree Unit} (mem : s ∈ (t :: e.children).reverse) :
      s ∈ e.children.reverse ∨ s = t := by
    rcases List.mem_cons.1 (List.mem_reverse.1 mem) with rfl | mem
    · exact .inr rfl
    · exact .inl (List.mem_reverse.2 mem)
  refine ⟨⟨{ own with void := ?_, unclosed := ?_, content := ?_ }, ?_⟩, h.open_⟩
  · exact fun void => absurd (void.symm.trans h.open_) (by decide)
  · intro s mem
    rcases listed mem with mem | rfl
    · exact own.unclosed s mem
    · exact takes.unclosed
  · intro model
    obtain ⟨first, value, rfl, free⟩ := takes.content model
    exact .inr ⟨(), value, by rw [first]; rfl, free⟩
  · refine parsedAll_iff.2 fun s mem => ?_
    rcases listed mem with mem | rfl
    · exact parsedAll_iff.1 all s mem
    · exact ht

end OpenElement

namespace Growth

/-- All trees grown so far are parsed; no open element ends the one around it; and only the innermost
one may have content that is read as it stands. -/
structure Parsed (g : Growth) : Prop where
  opened : ∀ e ∈ g.opened, e.Parsed
  outer : ∀ t ∈ g.outer, t.Parsed
  nested : g.names.IsChain fun inside around => (TagRules.of around).isClosedBy inside = false
  around : ∀ name ∈ g.names.tail, (TagRules.of name).content = .parsable

/-- If the innermost open element has content that is read as it stands, this content comes next, or
the end of the element. -/
def Awaits (g : Growth) (ls : List Lexeme) : Prop :=
  ∀ top ∈ g.opened.head?, (TagRules.of top.name).content ≠ .parsable → Seals top.name ls ∨
    top.children = [] ∧ ∃ value more, ls = .text value :: more ∧
      ((TagRules.of top.name).content = .raw → NoClosing top.name.toList value.toList) ∧
        Seals top.name more

variable {g : Growth} {ls : List Lexeme}

theorem Parsed.add (h : g.Parsed) {t : NodeTree Unit} (ht : t.Parsed)
    (takes : ∀ top ∈ g.opened.head?, top.Takes t) : (g.add t).Parsed where
  opened := by
    cases hg : g.opened with
    | nil => simp [Growth.add, hg]
    | cons top rest =>
        have own := h.opened
        rw [hg] at own
        simp only [Growth.add, hg]
        refine List.forall_mem_cons.2 ⟨?_, fun e mem => own e (List.mem_cons_of_mem top mem)⟩
        exact (own top List.mem_cons_self).take ht (takes top (by rw [hg]; rfl))
  outer := by
    cases hg : g.opened with
    | nil =>
        simp only [Growth.add, hg]
        exact List.forall_mem_cons.2 ⟨ht, h.outer⟩
    | cons top rest => simpa [Growth.add, hg] using h.outer
  nested := by
    rw [names_add]
    exact h.nested
  around := by
    rw [names_add]
    exact h.around

theorem Parsed.closeTop (h : g.Parsed) : g.closeTop.Parsed := by
  cases hg : g.opened with
  | nil => simpa [Growth.closeTop, hg] using h
  | cons top rest =>
      obtain ⟨opened, outer, nested, around⟩ := h
      rw [names, hg, List.map_cons] at nested around
      rw [hg] at opened
      have rested : Parsed { g with opened := rest } :=
        ⟨fun e mem => opened e (List.mem_cons_of_mem top mem), outer, nested.tail,
          fun name mem => around name (List.mem_of_mem_tail mem)⟩
      simp only [Growth.closeTop, hg]
      refine rested.add (opened top List.mem_cons_self).closed fun e first => ?_
      obtain ⟨more, rfl⟩ := List.head?_eq_some_iff.1 first
      refine ⟨?_, fun model => (model (around e.name List.mem_cons_self)).elim⟩
      rintro tag entries same
      cases same
      exact nested.rel_head? rfl

theorem Parsed.close (h : g.Parsed) (n : Nat) : (g.close n).Parsed :=
  close_keeps (P := Parsed) Parsed.closeTop h n

theorem Parsed.reportTop (h : g.Parsed) : g.reportTop.Parsed := by
  unfold Growth.reportTop
  split
  · exact h
  · split
    · exact h
    · exact ⟨h.opened, h.outer, h.nested, h.around⟩

theorem Parsed.abandon (h : g.Parsed) (n : Nat) : (g.abandon n).Parsed :=
  abandon_keeps (P := Parsed) Parsed.closeTop Parsed.reportTop h n

/-- Where the innermost open element is read as markup, nothing is awaited. -/
theorem awaits_of_names (h : ∀ name ∈ g.names.head?, (TagRules.of name).content = .parsable) :
    g.Awaits ls := by
  intro top first model
  refine (model (h top.name ?_)).elim
  rw [names, List.head?_map]
  exact Option.mem_map_of_mem _ first

theorem exists_of_mem_firstAttributes {attributes : List (String × String)} {e : String × Value}
    (h : e ∈ firstAttributes attributes) : ∃ entry ∈ attributes, e = (entry.1, .string entry.2) := by
  refine List.foldlRecOn (motive := fun kept : List (String × Value) => ∀ e ∈ kept,
    ∃ entry ∈ attributes, e = (entry.1, .string entry.2)) attributes _ (List.forall_mem_nil _) ?_ e h
  intro kept ih entry there
  dsimp only
  split
  · exact ih
  · exact List.forall_mem_append.2 ⟨ih, List.forall_mem_singleton.2 ⟨entry, there, rfl⟩⟩

theorem elementParsed_openTag {name : String} {attributes : List (String × String)} {selfClosing : Bool}
    (named : (Lexeme.openTag name attributes selfClosing).Named) :
    ElementParsed name (firstAttributes attributes) ([] : List (NodeTree Unit)) where
  plain := named.1
  distinct := firstAttributes_nodup attributes
  named e mem := by
    obtain ⟨entry, there, rfl⟩ := exists_of_mem_firstAttributes mem
    exact named.2 entry there
  strings e mem := by
    obtain ⟨entry, -, rfl⟩ := exists_of_mem_firstAttributes mem
    exact ⟨entry.2, rfl⟩
  void _ := rfl
  unclosed := nofun
  content _ := .inl rfl

/-- Inside an element whose content is read as it stands. -/
theorem parsed_step_inside (h : g.Parsed) {token : Token} {top : OpenElement} {rest : List OpenElement}
    (hg : g.opened = top :: rest) (model : (TagRules.of top.name).content ≠ .parsable)
    (awaits : g.Awaits (token.lexeme :: ls)) (clean : token.lexeme.Clean) :
    (g.step token).Parsed ∧ (g.step token).Awaits ls := by
  rcases awaits top (by rw [hg]; rfl) model with seals | ⟨childless, value, more, next, free, seals⟩
  · obtain ⟨more, next⟩ := seals.resolve_left (by simp)
    obtain ⟨closes, rfl⟩ := List.cons.inj next
    have notVoid := (h.opened top (by rw [hg]; exact List.mem_cons_self)).open_
    have found : g.opened.findIdx? (·.name == top.name) = some 0 := by
      rw [hg, List.findIdx?_cons]
      simp
    have step : g.step token = g.closeTop := by
      simp [Growth.step, closes, notVoid, found, Growth.abandon]
    rw [step]
    refine ⟨h.closeTop, awaits_of_names fun name first => h.around name ?_⟩
    rw [names_closeTop] at first
    exact List.mem_of_head? first
  · obtain ⟨text, rfl⟩ := List.cons.inj next
    rw [text] at clean
    have step : g.step token = g.add (node () (.text value) []) := by simp [Growth.step, text]
    rw [step]
    have takes : ∀ e ∈ g.opened.head?, e.Takes (node () (.text value) []) := by
      rw [hg]
      rintro _ ⟨⟩
      exact ⟨fun _ _ same => (by cases same), fun _ => ⟨childless, value, rfl, free⟩⟩
    refine ⟨h.add ⟨clean, rfl⟩ takes, fun e first _ => .inl ?_⟩
    rw [show (g.add (node () (.text value) [])).opened = _ from by rw [Growth.add, hg]] at first
    cases first
    exact seals

/-- A node without children at a place that is read as markup. -/
theorem parsed_add_leaf (h : g.Parsed)
    (markup : ∀ name ∈ g.names.head?, (TagRules.of name).content = .parsable) {data : NodeData} (leaf : (NodeTree.node () data []).Parsed)
    (unclosed : ∀ tag entries, data = .element tag entries → ∀ name ∈ g.names.head?,
      (TagRules.of name).isClosedBy tag = false) :
    (g.add (.node () data [])).Parsed ∧ (g.add (.node () data [])).Awaits ls := by
  refine ⟨h.add leaf fun e first => ?_, awaits_of_names (by rwa [names_add])⟩
  have named : e.name ∈ g.names.head? := by
    rw [names, List.head?_map]
    exact Option.mem_map_of_mem _ first
  exact ⟨fun tag entries same => unclosed tag entries same e.name named,
    fun model => (model (markup e.name named)).elim⟩

/-- At a place that is read as markup. -/
theorem parsed_step_outside (h : g.Parsed) {token : Token}
    (markup : ∀ name ∈ g.names, (TagRules.of name).content = .parsable)
    (leads : token.lexeme.Leads ls) (named : token.lexeme.Named) (clean : token.lexeme.Clean) :
    (g.step token).Parsed ∧ (g.step token).Awaits ls := by
  have here : ∀ name ∈ g.names.head?, (TagRules.of name).content = .parsable :=
    fun name first => markup name (List.mem_of_head? first)
  cases hl : token.lexeme with
  | text value =>
      rw [hl] at clean
      simp only [Growth.step, hl]
      exact parsed_add_leaf h here ⟨clean, rfl⟩ nofun
  | comment value =>
      rw [hl] at clean
      simp only [Growth.step, hl]
      exact parsed_add_leaf h here ⟨clean, rfl⟩ nofun
  | doctype value =>
      rw [hl] at clean
      simp only [Growth.step, hl]
      exact parsed_add_leaf h here ⟨clean, rfl⟩ nofun
  | openTag name attributes selfClosing =>
      rw [hl] at leads named
      simp only [Growth.step, hl]
      have closed := h.close (g.opened.takeWhile fun e => (TagRules.of e.name).isClosedBy name).length
      have outer := names_ended g fun around => (TagRules.of around).isClosedBy name
      generalize g.close
        (g.opened.takeWhile fun e => (TagRules.of e.name).isClosedBy name).length = g' at *
      have there : ∀ around ∈ g'.names, (TagRules.of around).content = .parsable := fun around mem =>
        markup around ((List.dropWhile_suffix _).subset (outer ▸ mem))
      have stays : ∀ around ∈ g'.names.head?, (TagRules.of around).isClosedBy name = false := by
        intro around first
        have stop :=
          List.head?_dropWhile_not (fun around => (TagRules.of around).isClosedBy name) g.names
        rw [← outer, first] at stop
        exact stop
      have own := elementParsed_openTag named
      split
      · refine parsed_add_leaf closed (fun around first => there around (List.mem_of_head? first))
          ⟨own, trivial⟩ ?_
        rintro tag entries same
        cases same
        exact stays
      · rename_i inside
        have notVoid : (TagRules.of name).isVoid = false ∧ selfClosing = false := by simpa using inside
        refine ⟨⟨List.forall_mem_cons.2 ⟨⟨⟨own, trivial⟩, notVoid.1⟩, closed.opened⟩, closed.outer,
          List.isChain_cons.2 ⟨stays, closed.nested⟩, there⟩, ?_⟩
        rintro _ ⟨⟩ model
        exact (leads notVoid.2 model).imp_right fun held => ⟨rfl, held⟩
  | closeTag name =>
      simp only [Growth.step, hl]
      split
      · exact ⟨⟨h.opened, h.outer, h.nested, h.around⟩, awaits_of_names here⟩
      · split
        · refine ⟨(h.abandon _).closeTop, awaits_of_names fun around first => markup around ?_⟩
          rw [names_closeTop, names_abandon] at first
          exact List.mem_of_mem_drop (List.mem_of_mem_tail (List.mem_of_head? first))
        · exact ⟨⟨h.opened, h.outer, h.nested, h.around⟩, awaits_of_names here⟩

/-- Behind a token of any kind the growth is parsed, and awaits what follows. -/
theorem parsed_step (h : g.Parsed) {token : Token} (awaits : g.Awaits (token.lexeme :: ls))
    (leads : token.lexeme.Leads ls) (named : token.lexeme.Named) (clean : token.lexeme.Clean) :
    (g.step token).Parsed ∧ (g.step token).Awaits ls := by
  cases hg : g.opened with
  | nil => exact parsed_step_outside h (by simp [names, hg]) leads named clean
  | cons top rest =>
      by_cases model : (TagRules.of top.name).content = .parsable
      · refine parsed_step_outside h (fun name mem => ?_) leads named clean
        have around := h.around
        rw [names, hg] at mem around
        rcases List.mem_cons.1 mem with rfl | mem
        · exact model
        · exact around name mem
      · exact parsed_step_inside h hg model awaits clean

theorem parsed_run (h : g.Parsed) {tokens : List Token} (awaits : g.Awaits (tokens.map Token.lexeme))
    (orderly : Orderly (tokens.map Token.lexeme)) (named : ∀ token ∈ tokens, token.lexeme.Named)
    (clean : ∀ l ∈ tokens.map Token.lexeme, l.Clean) : (tokens.foldl Growth.step g).Parsed := by
  induction tokens generalizing g with
  | nil => exact h
  | cons token tokens ih =>
      obtain ⟨parsed, further⟩ := parsed_step h awaits orderly.1 (named token List.mem_cons_self)
        (clean _ List.mem_cons_self)
      exact ih parsed further orderly.2 (fun t mem => named t (List.mem_cons_of_mem token mem))
        fun l mem => clean l (List.mem_cons_of_mem _ mem)

end Growth

/-- All trees that are read from any markup are parsed. -/
theorem parsedAll_parse (markup : String) : ParsedAll (parse markup).1 := by
  have begins : Growth.start.Parsed := ⟨nofun, nofun, .nil, nofun⟩
  have grown := Growth.parsed_run begins nofun (orderly_mergeTexts (orderly_readAll ⟨markup.toList, 0⟩))
    (named_tokenize markup) (clean_mergeTexts (clean_readAll _))
  have closed := grown.abandon ((tokenize markup).1.foldl Growth.step Growth.start).opened.length
  exact parsedAll_iff.2 fun t mem => closed.outer t (List.mem_reverse.1 mem)

end Stencil.Markup
