import Stencil.Proofs.Markup.Foreword
import Stencil.Proofs.Markup.Growth

/-! # Markup inside an element

Markup that is read without a flaw is read as the same trees inside of an element that no tag ends
but its own. Elements that may be left open are closed where that element ends.
-/

namespace Stencil.Markup

open NodeTree

/-! ## Tokens -/

/-- What is no text keeps what is before it apart from what is behind it. -/
theorem mergeTexts_append_cons {token : Token} (other : ∀ value, token.lexeme ≠ .text value)
    (before behind : List Token) :
    mergeTexts (before ++ token :: behind) = mergeTexts before ++ token :: mergeTexts behind := by
  induction before with
  | nil =>
      rw [List.nil_append, mergeTexts.eq_2]
      split
      · rename_i text _
        exact (other _ text).elim
      · rfl
  | cons first before ih =>
      rw [List.cons_append, mergeTexts.eq_2, mergeTexts.eq_2, ih]
      cases mergeTexts before with
      | nil =>
          obtain ⟨lexeme, start, stop⟩ := token
          cases lexeme with
          | text value => exact (other value rfl).elim
          | _ => cases first.lexeme <;> rfl
      | cons second others =>
          obtain ⟨lexeme, start, stop⟩ := second
          cases first.lexeme <;> cases lexeme <;> rfl

/-- Which texts become one is seen from the lexemes. -/
theorem lexemes_mergeTexts {as : List Token} :
    ∀ {bs : List Token}, as.map Token.lexeme = bs.map Token.lexeme →
      (mergeTexts as).map Token.lexeme = (mergeTexts bs).map Token.lexeme := by
  induction as with
  | nil =>
      intro bs same
      rw [List.map_eq_nil_iff.1 same.symm]
  | cons a as ih =>
      intro bs same
      obtain ⟨b, bs, rfl, first, others⟩ := List.map_eq_cons_iff.1 same.symm
      have further := ih others.symm
      rw [mergeTexts.eq_2, mergeTexts.eq_2, first]
      cases merged : mergeTexts as with
      | nil =>
          rw [merged] at further
          rw [List.map_eq_nil_iff.1 further.symm]
          cases a.lexeme <;> simp [first]
      | cons x xs =>
          rw [merged] at further
          obtain ⟨y, ys, same, own, rest⟩ := List.map_eq_cons_iff.1 further.symm
          rw [same]
          obtain ⟨lexeme, start, stop⟩ := x
          obtain ⟨lexeme', start', stop'⟩ := y
          obtain rfl : lexeme' = lexeme := own
          cases a.lexeme <;> cases lexeme' <;> simp [first, rest]

/-! ## Growing inside -/

/-- An open element without its place in the text. -/
def OpenElement.unplaced (e : OpenElement) : OpenElement := { e with start := 0, stop := 0 }

namespace Growth

theorem flaws_add (g : Growth) (t : NodeTree Unit) : (g.add t).flaws = g.flaws := by
  cases hg : g.opened <;> simp [add, hg]

theorem flaws_closeTop (g : Growth) : g.closeTop.flaws = g.flaws := by
  cases hg : g.opened with
  | nil => simp [closeTop, hg]
  | cons top rest => simp only [closeTop, hg, flaws_add]

theorem flaws_close (g : Growth) (n : Nat) : (g.close n).flaws = g.flaws :=
  close_keeps (P := fun k => k.flaws = g.flaws) (fun h => (flaws_closeTop _).trans h) rfl n

/-- A flaw that has been met stays. -/
theorem flaws_reportTop (g : Growth) : g.flaws <:+ g.reportTop.flaws := by
  unfold reportTop
  split
  · exact List.suffix_rfl
  · split
    · exact List.suffix_rfl
    · exact List.suffix_cons _ _

theorem flaws_abandon (g : Growth) (n : Nat) : g.flaws <:+ (g.abandon n).flaws :=
  abandon_keeps (P := fun k => g.flaws <:+ k.flaws) (fun h => by rwa [flaws_closeTop])
    (fun h => h.trans (flaws_reportTop _)) List.suffix_rfl n

theorem flaws_step (g : Growth) (token : Token) : g.flaws <:+ (g.step token).flaws := by
  cases lexeme : token.lexeme with
  | text | comment | doctype =>
      simp only [step, lexeme, flaws_add]
      exact List.suffix_rfl
  | openTag name attributes selfClosing =>
      simp only [step, lexeme]
      split <;> simp only [flaws_add, flaws_close, List.suffix_rfl]
  | closeTag name =>
      simp only [step, lexeme]
      split
      · exact List.suffix_cons _ _
      · split
        · rw [flaws_closeTop]
          exact flaws_abandon g _
        · exact List.suffix_cons _ _

theorem flaws_run (g : Growth) (tokens : List Token) : g.flaws <:+ (tokens.foldl step g).flaws := by
  induction tokens generalizing g with
  | nil => exact List.suffix_rfl
  | cons token tokens ih => exact (flaws_step g token).trans (ih _)

/-- The second is the first inside of an open element, places in the text apart. -/
structure Inside (name : String) (attributes : List (String × Value)) (g k : Growth) : Prop where
  opened : k.opened.map OpenElement.unplaced =
    g.opened.map OpenElement.unplaced ++ [⟨name, attributes, 0, 0, g.outer⟩]
  outer : k.outer = []
  clean : k.flaws = []

variable {name : String} {attributes : List (String × Value)} {g k : Growth}

theorem Inside.names (h : Inside name attributes g k) : k.names = g.names ++ [name] := by
  have named (es : List OpenElement) : (es.map OpenElement.unplaced).map OpenElement.name =
      es.map OpenElement.name := by
    rw [List.map_map]
    rfl
  rw [Growth.names, ← named, h.opened, List.map_append, named]
  rfl

/-- Of the elements that are open inside, the innermost is the same. -/
theorem Inside.top (h : Inside name attributes g k) {top : OpenElement} {rest : List OpenElement}
    (some_open : g.opened = top :: rest) :
    ∃ e es, k.opened = e :: es ∧ e.unplaced = top.unplaced ∧
      es.map OpenElement.unplaced =
        rest.map OpenElement.unplaced ++ [⟨name, attributes, 0, 0, g.outer⟩] := by
  have same := h.opened
  rw [some_open, List.map_cons, List.cons_append] at same
  exact List.map_eq_cons_iff.1 same

theorem Inside.add (h : Inside name attributes g k) (t : NodeTree Unit) :
    Inside name attributes (g.add t) (k.add t) := by
  cases some_open : g.opened with
  | nil =>
      have same := h.opened
      rw [some_open, List.map_nil, List.nil_append] at same
      obtain ⟨e, es, opened, own, nothing⟩ := List.map_eq_cons_iff.1 same
      obtain rfl := List.map_eq_nil_iff.1 nothing
      simp only [Growth.add, some_open, opened]
      obtain ⟨rfl, rfl, -, -, children⟩ := OpenElement.mk.inj own
      refine ⟨?_, h.outer, h.clean⟩
      simp only [List.map_cons, List.map_nil, List.nil_append, OpenElement.unplaced, children]
  | cons top rest =>
      obtain ⟨e, es, opened, own, others⟩ := h.top some_open
      simp only [Growth.add, some_open, opened]
      refine ⟨?_, h.outer, h.clean⟩
      obtain ⟨named, entries, -, -, children⟩ := OpenElement.mk.inj own
      simp only [List.map_cons, List.cons_append, others, OpenElement.unplaced, named, entries, children]

theorem Inside.closeTop (h : Inside name attributes g k) (some_open : g.opened ≠ []) :
    Inside name attributes g.closeTop k.closeTop := by
  cases opened : g.opened with
  | nil => exact (some_open opened).elim
  | cons top rest =>
      obtain ⟨e, es, opened', own, others⟩ := h.top opened
      obtain ⟨named, entries, -, -, children⟩ := OpenElement.mk.inj own
      have closed : e.close = top.close := by
        simp only [OpenElement.close]
        rw [named, entries, children]
      have rested : Inside name attributes { g with opened := rest } { k with opened := es } :=
        ⟨others, h.outer, h.clean⟩
      simp only [Growth.closeTop, opened, opened', closed]
      exact rested.add top.close

theorem length_closeTop (g : Growth) : g.closeTop.opened.length = g.opened.length - 1 := by
  have names := congrArg List.length (names_closeTop g)
  simpa [Growth.names] using names

theorem Inside.close (h : Inside name attributes g k) {n : Nat} (size : n ≤ g.opened.length) :
    Inside name attributes (g.close n) (k.close n) := by
  induction n generalizing g k with
  | zero => exact h
  | succ n ih =>
      have some_open : g.opened ≠ [] := List.ne_nil_of_length_pos (by omega)
      exact ih (h.closeTop some_open) (by rw [length_closeTop]; omega)

theorem Inside.reportTop (h : Inside name attributes g k) (some_open : g.opened ≠ [])
    (sound : g.reportTop.flaws = []) : Inside name attributes g.reportTop k.reportTop := by
  cases opened : g.opened with
  | nil => exact (some_open opened).elim
  | cons top rest =>
      obtain ⟨e, es, opened', own, -⟩ := h.top opened
      have same : e.isOptional = top.isOptional := by
        rw [OpenElement.isOptional, OpenElement.isOptional, (OpenElement.mk.inj own).1]
      simp only [Growth.reportTop, opened, opened', same] at sound ⊢
      split
      · exact h
      · rename_i reported
        rw [if_neg reported] at sound
        cases sound

theorem opened_reportTop (g : Growth) : g.reportTop.opened = g.opened := by
  unfold Growth.reportTop
  split
  · rfl
  · split <;> rfl

/-- What was met without a flaw was so before its last step. -/
theorem clean_of_suffix {fs gs : List Flaw} (h : fs <:+ gs) (clean : gs = []) : fs = [] :=
  List.suffix_nil.1 (clean ▸ h)

theorem Inside.abandon (h : Inside name attributes g k) {n : Nat} (size : n ≤ g.opened.length)
    (sound : (g.abandon n).flaws = []) : Inside name attributes (g.abandon n) (k.abandon n) := by
  induction n generalizing g k with
  | zero => exact h
  | succ n ih =>
      have some_open : g.opened ≠ [] := List.ne_nil_of_length_pos (by omega)
      have before : g.reportTop.flaws = [] := by
        rw [← flaws_closeTop]
        exact clean_of_suffix (flaws_abandon _ n) sound
      have reported := h.reportTop some_open before
      refine ih (reported.closeTop (by rwa [opened_reportTop])) ?_ sound
      rw [length_closeTop, opened_reportTop]
      omega

/-- A tag ends the same elements inside of an element that no other tag ends. -/
theorem Inside.ended (h : Inside name attributes g k) (rules : TagRules.of name = {}) (tag : String) :
    (k.opened.takeWhile fun e => (TagRules.of e.name).isClosedBy tag).length =
      (g.opened.takeWhile fun e => (TagRules.of e.name).isClosedBy tag).length := by
  have byName (g : Growth) : (g.opened.takeWhile fun e => (TagRules.of e.name).isClosedBy tag).length =
      (g.names.takeWhile fun name => (TagRules.of name).isClosedBy tag).length := by
    rw [Growth.names, List.takeWhile_map, List.length_map]
    rfl
  have stays : (TagRules.of name).isClosedBy tag = false := by
    rw [rules]
    rfl
  rw [byName, byName, h.names, List.takeWhile_append]
  split
  · rename_i all
    simp [stays, all]
  · rfl

theorem findIdx?_opened (g : Growth) (tag : String) :
    g.opened.findIdx? (·.name == tag) = g.names.findIdx? (· == tag) := by
  rw [Growth.names, List.findIdx?_map]
  rfl

/-- The element that a closing tag is for is found at the same depth. -/
theorem Inside.found (h : Inside name attributes g k) {tag : String} {depth : Nat}
    (found : g.opened.findIdx? (·.name == tag) = some depth) :
    k.opened.findIdx? (·.name == tag) = some depth := by
  rw [findIdx?_opened] at found ⊢
  rw [h.names, List.findIdx?_append, found]
  rfl

theorem Inside.step (h : Inside name attributes g k) (rules : TagRules.of name = {}) {a b : Token}
    (same : a.lexeme = b.lexeme) (sound : (g.step a).flaws = []) :
    Inside name attributes (g.step a) (k.step b) := by
  cases lexeme : b.lexeme with
  | text | comment | doctype =>
      simp only [Growth.step, same, lexeme]
      exact h.add _
  | openTag tag entries selfClosing =>
      simp only [Growth.step, same, lexeme, h.ended rules]
      have closed := h.close (List.takeWhile_prefix fun e => (TagRules.of e.name).isClosedBy tag).length_le
      split
      · exact closed.add _
      · refine ⟨?_, closed.outer, closed.clean⟩
        simp only [List.map_cons, closed.opened, OpenElement.unplaced, List.cons_append]
  | closeTag tag =>
      simp only [Growth.step, same, lexeme] at sound ⊢
      split
      · rename_i void
        rw [if_pos void] at sound
        cases sound
      · rename_i content
        rw [if_neg content] at sound
        cases found : g.opened.findIdx? (·.name == tag) with
        | none =>
            rw [found] at sound
            cases sound
        | some depth =>
            rw [found] at sound
            rw [h.found found]
            rw [flaws_closeTop] at sound
            have inside : depth < g.opened.length := (List.findIdx?_eq_some_iff_getElem.1 found).1
            refine (h.abandon (Nat.le_of_lt inside) sound).closeTop fun nothing => ?_
            have left := congrArg List.length (names_abandon g depth)
            simp only [Growth.names, List.length_map, nothing, List.length_drop, List.length_nil] at left
            omega

theorem Inside.run (rules : TagRules.of name = {}) {as : List Token} :
    ∀ {bs : List Token} {g k : Growth}, Inside name attributes g k →
      as.map Token.lexeme = bs.map Token.lexeme → (as.foldl Growth.step g).flaws = [] →
      Inside name attributes (as.foldl Growth.step g) (bs.foldl Growth.step k) := by
  induction as with
  | nil =>
      intro bs g k h same _
      rw [List.map_eq_nil_iff.1 same.symm]
      exact h
  | cons a as ih =>
      intro bs g k h same sound
      obtain ⟨b, bs, rfl, first, others⟩ := List.map_eq_cons_iff.1 same.symm
      rw [List.foldl_cons, List.foldl_cons]
      exact ih (h.step rules first.symm (clean_of_suffix (flaws_run _ as) sound)) others.symm sound

/-- What is closed in the end without a flaw may be left open. -/
theorem optional_of_abandon (g : Growth) (n : Nat) (sound : (g.abandon n).flaws = []) :
    ∀ name ∈ g.names.take n, (TagRules.of name).closedBy ≠ [] := by
  induction n generalizing g with
  | zero => simp
  | succ n ih =>
      cases opened : g.opened with
      | nil => simp [Growth.names, opened]
      | cons top rest =>
          have further := ih _ sound
          rw [names_closeTop, names_reportTop] at further
          have named : g.names = top.name :: g.names.tail := by simp [Growth.names, opened]
          have before : g.reportTop.flaws = [] := by
            rw [← flaws_closeTop]
            exact clean_of_suffix (flaws_abandon _ n) sound
          rw [named, List.take_succ_cons]
          refine List.forall_mem_cons.2 ⟨fun required => ?_, further⟩
          simp [reportTop, opened, OpenElement.isOptional, required] at before

/-- The closing tag of the element that all is in closes whatever has been left open. -/
theorem Inside.finish (h : Inside name attributes g k) (rules : TagRules.of name = {})
    (sound : (g.abandon g.opened.length).flaws = []) {token : Token}
    (lexeme : token.lexeme = .closeTag name) :
    k.step token =
      ⟨[], [node () (.element name attributes) (g.abandon g.opened.length).outer.reverse], []⟩ := by
  have optional := optional_of_abandon g g.opened.length sound
  rw [List.take_of_length_le (by simp [Growth.names])] at optional
  -- What is still open has an optional closing tag, and the enclosing element has not, so that the tag
  -- is not taken for one of them.
  have found : k.opened.findIdx? (·.name == name) = some g.opened.length := by
    have others : g.names.findIdx? (· == name) = none := by
      rw [List.findIdx?_eq_none_iff]
      intro other mem
      rw [beq_eq_false_iff_ne]
      rintro rfl
      exact optional _ mem (by rw [rules])
    rw [findIdx?_opened, h.names, List.findIdx?_append, others]
    simp [Growth.names]
  have left := h.abandon (Nat.le_refl _) sound
  obtain ⟨e, es, opened, own, nothing⟩ : ∃ e es, (k.abandon g.opened.length).opened = e :: es ∧
      e.unplaced = ⟨name, attributes, 0, 0, (g.abandon g.opened.length).outer⟩ ∧
      es.map OpenElement.unplaced = [] := by
    have same := left.opened
    rw [opened_abandon, List.map_nil, List.nil_append] at same
    exact List.map_eq_cons_iff.1 same
  obtain rfl := List.map_eq_nil_iff.1 nothing
  obtain ⟨named, entries, -, -, children⟩ := OpenElement.mk.inj own
  have void : (TagRules.of name).isVoid = false := by rw [rules]
  simp only [Growth.step, lexeme, void, found, Growth.closeTop, opened]
  simp [Growth.add, left.outer, left.clean, OpenElement.close, named, entries, children]

end Growth

/-! ## Reading -/

/-- What grows from tokens, with all elements closed that are open in the end. -/
def grown (tokens : List Token) : Growth :=
  (tokens.foldl Growth.step Growth.start).abandon (tokens.foldl Growth.step Growth.start).opened.length

theorem parse_eq (markup : String) :
    parse markup = ((grown (tokenize markup).1).outer.reverse,
      (tokenize markup).2 ++ (grown (tokenize markup).1).flaws.reverse) := rfl

theorem required_of_content {name : String} (model : (TagRules.of name).content ≠ .parsable) :
    (TagRules.of name).closedBy = [] :=
  TagRules.of_induct (P := fun _ rules => rules.content ≠ .parsable → rules.closedBy = [])
    (by decide) (fun _ _ => rfl) name model

/-- In a text that is read without a flaw no content is open at the end. -/
theorem sealed_of_grown {tokens : List Token} (sound : (grown (mergeTexts tokens)).flaws = []) :
    Sealed (tokens.map Token.lexeme) := by
  intro name attributes text model held ends
  obtain ⟨before, same⟩ := ends
  obtain ⟨front, behind, rfl, -, last⟩ := List.map_eq_append_iff.1 same.symm
  obtain ⟨opening, content, rfl, lexeme, inside⟩ := List.map_eq_cons_iff.1 last
  have other : ∀ value, opening.lexeme ≠ .text value := by simp [lexeme]
  have void : (TagRules.of name).isVoid = false := by
    cases void : (TagRules.of name).isVoid with
    | false => rfl
    | true => exact (model (parsable_of_isVoid void)).elim
  -- The element is the innermost in the end, since nothing but its text is behind its open tag.
  rw [mergeTexts_append_cons other, grown, List.foldl_append, List.foldl_cons] at sound
  generalize (mergeTexts front).foldl Growth.step Growth.start = g at sound
  have opened : (g.step opening).names.head? = some name := by
    simp [Growth.step, lexeme, void, Growth.names]
  have still : ((mergeTexts content).foldl Growth.step (g.step opening)).names.head? = some name := by
    rcases held with rfl | ⟨value, rfl⟩
    · rw [List.map_eq_nil_iff.1 inside]
      exact opened
    · obtain ⟨token, nothing, rfl, words, ended⟩ := List.map_eq_cons_iff.1 inside
      rw [List.map_eq_nil_iff.1 ended]
      simp only [mergeTexts, words, List.foldl_cons, List.foldl_nil]
      rw [Growth.step, words, Growth.names_add]
      exact opened
  obtain ⟨others, names⟩ := List.head?_eq_some_iff.1 still
  refine Growth.optional_of_abandon _ _ sound name ?_ (required_of_content model)
  rw [List.take_of_length_le (by simp [Growth.names]), names]
  exact List.mem_cons_self

/-- What grows from tokens inside of an element is what grows from them alone. -/
theorem grown_enclosed {name : String} {entries : List (String × String)}
    (rules : TagRules.of name = {}) {opening closing : Token}
    (opens : opening.lexeme = .openTag name entries false) (closes : closing.lexeme = .closeTag name)
    {as bs : List Token} (same : as.map Token.lexeme = bs.map Token.lexeme)
    (sound : (grown as).flaws = []) :
    grown (opening :: (bs ++ [closing])) =
      ⟨[], [node () (.element name (firstAttributes entries)) (grown as).outer.reverse], []⟩ := by
  have void : (TagRules.of name).isVoid = false := by rw [rules]
  have first : Growth.start.step opening =
      ⟨[⟨name, firstAttributes entries, opening.start, opening.stop, []⟩], [], []⟩ := by
    simp [Growth.step, opens, void, Growth.start, Growth.close]
  have begins : Growth.Inside name (firstAttributes entries) Growth.start
      (Growth.start.step opening) := by
    rw [first]
    exact ⟨rfl, rfl, rfl⟩
  have inside := Growth.Inside.run rules begins same (Growth.clean_of_suffix (Growth.flaws_abandon _ _) sound)
  rw [grown, List.foldl_cons, List.foldl_append, List.foldl_cons, List.foldl_nil,
    inside.finish rules sound closes]
  rfl

/-- Between an open tag and a closing tag texts become one as they do alone. -/
theorem tokenize_enclosed {text name : String} {entries : List (String × String)} {ls : List Lexeme}
    (lexed : Lexes text.toList [] (.openTag name entries false :: (ls ++ [.closeTag name]))) :
    ∃ opening content closing, opening.lexeme = .openTag name entries false ∧
      closing.lexeme = .closeTag name ∧ content.map Token.lexeme = ls ∧
      tokenize text = (opening :: (mergeTexts content ++ [closing]), []) := by
  obtain ⟨o, tokens, same, whole⟩ := lexed 0
  have ended : readAll ⟨[], o⟩ = ([], []) := by rw [readAll, dif_pos rfl]
  rw [List.append_nil, ended, List.append_nil] at whole
  obtain ⟨opening, others, rfl, opens, behind⟩ := List.map_eq_cons_iff.1 same
  obtain ⟨content, last, rfl, within, last⟩ := List.map_eq_append_iff.1 behind
  obtain ⟨closing, nothing, rfl, closes, none_left⟩ := List.map_eq_cons_iff.1 last
  obtain rfl := List.map_eq_nil_iff.1 none_left
  have first := mergeTexts_append_cons (fun value text => by cases opens ▸ text) [] (content ++ [closing])
  have second := mergeTexts_append_cons (fun value text => by cases closes ▸ text) content []
  refine ⟨opening, content, closing, opens, closes, within, ?_⟩
  rw [tokenize, whole]
  exact congrArg (·, []) (first.trans (congrArg (opening :: ·) second))

section

variable {name : String} (plain : PlainName name.toList) (rules : TagRules.of name = {})
  {attributes : List (String × Value)} (plains : ∀ entry ∈ attributes, PlainName entry.1.toList)
  {markup : String} (sound : (parse markup).2 = [])

include plain rules plains sound

theorem lexes_enclosed :
    Lexes (printOpenTag name attributes ++ markup ++ "</" ++ name ++ ">").toList []
      (.openTag name (attributes.map fun entry => (entry.1, entry.2.text)) false ::
        ((readAll ⟨markup.toList, 0⟩).1.map Token.lexeme ++ [.closeTag name])) := by
  obtain ⟨read, flaws⟩ := List.append_eq_nil_iff.1 (parse_eq markup ▸ sound)
  have inside : Lexes markup.toList (writtenClosing name.toList ++ [])
      ((readAll ⟨markup.toList, 0⟩).1.map Token.lexeme) :=
    lexes_before (startsMarkup_closing plain []) read
      (sealed_of_grown (List.reverse_eq_nil_iff.1 flaws))
  have entries : ∀ entry ∈ attributes.map fun entry => (entry.1, entry.2.text),
      PlainName entry.1.toList := List.forall_mem_map.2 plains
  have text : (printOpenTag name attributes ++ markup ++ "</" ++ name ++ ">").toList =
      writtenOpening quoted name.toList (attributes.map fun entry => (entry.1, entry.2.text)) ++
        (markup.toList ++ writtenClosing name.toList) := by
    simp [toList_printOpenTag, writtenClosing]
  rw [text]
  refine (lexes_opening (readsBack_of_legible legible_quoted entries) plain _
    (.inr ⟨by rw [rules], fun skips => ?_⟩)).append (inside.append (lexes_closing plain []))
  rw [rules] at skips
  cases skips

/-- Markup that is read without a flaw is read as the same trees inside of an element. -/
theorem parse_enclosed (distinct : (attributes.map Prod.fst).Nodup)
    (strings : ∀ entry ∈ attributes, ∃ value, entry.2 = .string value) :
    parse (printOpenTag name attributes ++ markup ++ "</" ++ name ++ ">") =
      ([node () (.element name attributes) (parse markup).1], []) := by
  obtain ⟨-, flaws⟩ := List.append_eq_nil_iff.1 (parse_eq markup ▸ sound)
  have clean := List.reverse_eq_nil_iff.1 flaws
  obtain ⟨opening, content, closing, opens, closes, within, tokenized⟩ :=
    tokenize_enclosed (lexes_enclosed plain rules plains sound)
  rw [parse_eq, tokenized, grown_enclosed rules opens closes (lexemes_mergeTexts within.symm) clean,
    Growth.firstAttributes_eq distinct strings]
  rfl

end

end Stencil.Markup
