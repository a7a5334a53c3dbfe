import Stencil.Proofs.Markup.Names
import Stencil.Proofs.Markup.RoundTrip

/-! # Elements that hold a text

The markup of an element with one escaped text, or with nothing, is read as its open tag, this
text and its closing tag, whatever the text is and whatever the values of the attributes are.
Content that is read as it stands is left out, since nothing in it is escaped.
-/

namespace Stencil.Markup

open NodeTree

/-- The lexemes of an element with a text, or with nothing if the text is empty. -/
def elementLexemes (tag : String) (entries : List (String × String)) (words : String) : List Lexeme :=
  .openTag tag entries false :: contentLexemes words.toList ++ [.closeTag tag]

theorem textsApart_elementLexemes (tag : String) (entries : List (String × String)) (words : String) :
    TextsApart (elementLexemes tag entries words) := by
  unfold elementLexemes contentLexemes
  split
  · exact .cons_cons nofun (.singleton _)
  · exact .cons_cons nofun (.cons_cons (fun both => by cases both.2) (.singleton _))

section

variable {tag : String} {entries : List (String × String)} {words : String}
  (plain : PlainName tag.toList) (reads : ReadsBack quoted entries)
  (notVoid : (TagRules.of tag).isVoid = false) (notRaw : (TagRules.of tag).content ≠ .raw)
  (newline : (TagRules.of tag).skipsNewline = true → ∀ cs, words.toList ≠ '\n' :: cs)

include plain reads notVoid notRaw newline

theorem lexes_element (rest : List Char) :
    Lexes (writtenOpening quoted tag.toList entries ++ words.toList.flatMap escapedTextChar ++
        writtenClosing tag.toList) rest (elementLexemes tag entries words) := by
  have closes := startsMarkup_closing plain rest
  have keeps : KeepsNewline (TagRules.of tag)
      (words.toList.flatMap escapedTextChar ++ (writtenClosing tag.toList ++ rest)) :=
    keepsNewline_append (fun skips => escapedText_ne_newline (newline skips))
      (keepsNewline_of_startsMarkup _ closes)
  refine Lexes.append ?_ (lexes_closing plain rest)
  cases content : (TagRules.of tag).content with
  | raw => exact (notRaw content).elim
  | escapable =>
      exact lexes_content reads plain notVoid (.inr ⟨content, rfl⟩)
        (noClosing_of_not_mem (not_mem_escapedText words.toList)) rest keeps
  | parsable =>
      refine (lexes_opening reads plain _ (.inr ⟨content, keeps⟩)).append ?_
      split
      · rename_i empty
        rw [empty]
        exact lexes_nil _
      · rename_i filled
        rw [String.ofList_toList]
        exact lexes_text (fun empty => filled (by rw [empty]; rfl)) (.inr closes)

end

variable {ι : Type}

/-- Nothing, or one text. -/
def HoldsText (children : List (NodeTree ι)) (words : String) : Prop :=
  children = [] ∧ words = "" ∨ ∃ label, children = [node label (.text words) []]

theorem toList_print_element {label : ι} {tag : String} {attributes : List (String × Value)}
    {children : List (NodeTree ι)} {words : String} (holds : HoldsText children words)
    (notVoid : (TagRules.of tag).isVoid = false) (notRaw : (TagRules.of tag).content ≠ .raw) :
    ((node label (.element tag attributes) children).print false).toList =
      writtenOpening quoted tag.toList (attributes.map fun entry => (entry.1, entry.2.text)) ++
        words.toList.flatMap escapedTextChar ++ writtenClosing tag.toList := by
  have escaped : (NodeData.element tag attributes).isRaw = false := beq_eq_false_iff_ne.2 notRaw
  have content : writtenAll quoted false children = words.toList.flatMap escapedTextChar := by
    rcases holds with ⟨rfl, rfl⟩ | ⟨label, rfl⟩
    · rfl
    · simp [writtenAll, written]
  rw [toList_print, written, notVoid, escaped, content, List.append_assoc]
  rfl

/-- An element with one text or none is read back, its text and the values of its attributes being
what they are. -/
theorem tokenize_print_element (label : ι) {tag : String} {attributes : List (String × Value)}
    {children : List (NodeTree ι)} {words : String} (holds : HoldsText children words)
    (plain : PlainName tag.toList) (named : ∀ entry ∈ attributes, AttributeName entry.1.toList)
    (notVoid : (TagRules.of tag).isVoid = false) (notRaw : (TagRules.of tag).content ≠ .raw)
    (newline : (TagRules.of tag).skipsNewline = true → ∀ cs, words.toList ≠ '\n' :: cs) :
    ∃ tokens, tokenize ((node label (.element tag attributes) children).print false) = (tokens, []) ∧
      tokens.map Token.lexeme =
        elementLexemes tag (attributes.map fun entry => (entry.1, entry.2.text)) words := by
  refine tokenize_of_apart (textsApart_elementLexemes _ _ _) ?_
  have reads : ReadsBack quoted (attributes.map fun entry => (entry.1, entry.2.text)) :=
    fun name start rest offset => readTagBody_quoted name start rest _
      (List.forall_mem_map.2 named) offset
  have lexed := lexes_element plain reads notVoid notRaw newline []
  rwa [← toList_print_element holds notVoid notRaw] at lexed

/-! ## Rules by name -/

/-- What holds of all names in the table, and of names without rules, holds of every tag. -/
theorem TagRules.of_induct {P : String → TagRules → Prop} (listed : ∀ entry ∈ TagRules.table, P entry.1 entry.2)
    (other : ∀ name, P name {}) (tag : String) : P (Text.lower tag) (TagRules.of tag) := by
  unfold TagRules.of
  cases found : TagRules.table.find? fun entry => entry.1 == Text.lower tag with
  | none => exact other _
  | some entry =>
      have named : entry.1 = Text.lower tag := by simpa using List.find?_some found
      exact named ▸ listed entry (List.mem_of_find?_eq_some found)

theorem PlainName.lower {tag : String} (plain : PlainName tag.toList) : Text.lower tag = tag := by
  rw [Text.lower, plain.lowercase, String.ofList_toList]

/-- What the rules of a tag with a name in small letters say of the name. -/
theorem rules_named {tag : String} (plain : PlainName tag.toList) :
    ((TagRules.of tag).isVoid = true → tag ∈ TagRules.voidNames) ∧
      ((TagRules.of tag).content = .raw → tag = "script" ∨ tag = "style") ∧
        ((TagRules.of tag).skipsNewline = true → tag = "pre" ∨ tag = "textarea") := by
  have all := TagRules.of_induct (P := fun name rules =>
    (rules.isVoid = true → name ∈ TagRules.voidNames) ∧
      (rules.content = .raw → name = "script" ∨ name = "style") ∧
        (rules.skipsNewline = true → name = "pre" ∨ name = "textarea"))
    (by decide) (fun _ => ⟨nofun, nofun, nofun⟩) tag
  rwa [plain.lower] at all

end Stencil.Markup
