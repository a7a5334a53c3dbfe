import Stencil.Proofs.Compile.Pieces
import Stencil.Proofs.Markup.RoundTrip
import Stencil.Proofs.Text.Replacing

/-! # Abbreviated markup

Host markers lose their empty value in the text of the markup. Where no text, comment or
doctype holds the characters of such a marker, this happens to attributes only, and the
markup is read as before.
-/

namespace Stencil.Markup

open Text (Apart)

/-! ## Markers -/

/-- A host marker with its value, as it is written. -/
def valuedMarker : List Char := (Marker.host ++ "=\"\"").toList

/-- The text without the values of host markers. -/
def shorten (text : List Char) : List Char :=
  Text.replaceAll valuedMarker Marker.host.toList text

theorem toList_abbreviate (markup : String) :
    (Compile.abbreviate markup).toList = shorten markup.toList := String.toList_ofList

theorem valuedMarker_eq : valuedMarker = Marker.host.toList ++ ['=', '"', '"'] := by
  decide

theorem valuedMarker_ne_nil : valuedMarker ≠ [] := by
  decide

/-- A marker does not overlap with itself. -/
theorem valuedMarker_borderless : ∀ n < valuedMarker.length, 0 < n →
    ¬valuedMarker.drop n <+: valuedMarker := by
  decide

theorem shorten_append {front back : List Char} (apart : Apart valuedMarker front back) :
    shorten (front ++ back) = shorten front ++ shorten back :=
  Text.replaceAll_append _ valuedMarker_ne_nil front back apart

theorem shorten_of_absent {text : List Char} (out : ¬valuedMarker <:+: text) :
    shorten text = text :=
  Text.replaceAll_of_absent _ valuedMarker_ne_nil out

/-- There is no marker without quotes. -/
theorem shorten_of_not_mem {text : List Char} (out : '"' ∉ text) : shorten text = text :=
  shorten_of_absent fun inside => out (inside.subset (by decide))

theorem shorten_valuedMarker : shorten valuedMarker = Marker.host.toList := by
  have found := Text.replaceAll_found Marker.host.toList valuedMarker_ne_nil []
  rwa [Text.replaceAll_nil _ valuedMarker_ne_nil, List.append_nil, List.append_nil] at found

/-! ## Attributes -/

/-- What is left behind the name of an attribute: nothing for an empty value behind a
name that ends like a host marker. -/
def abbreviated (entry : String × String) : List Char :=
  if entry.2 = "" ∧ Marker.host.toList <:+ entry.1.toList then [] else quoted entry

theorem Cursor.skipBlanks_skipBlanks (c : Cursor) : c.skipBlanks.skipBlanks = c.skipBlanks := by
  refine skipBlanks_of_not _ fun d ds begins => ?_
  have first := List.head?_dropWhile_not isBlank c.rest
  rw [show c.rest.dropWhile isBlank = d :: ds from begins] at first
  exact first

theorem not_isBlank_of_isLower {c : Char} (letter : c.isLower = true) : isBlank c = false := by
  cases blank : isBlank c with
  | false => rfl
  | true =>
      have inside := not_isNameEnd_of_isAlpha (c := c) (Bool.or_eq_true_iff.2 (.inr letter))
      rw [isNameEnd_of_isBlank blank] at inside
      cases inside

theorem EndsAttribute.isNameEnd {rest : List Char} (h : EndsAttribute rest) :
    ∀ c cs, rest = c :: cs → isNameEnd c = true := by
  rintro c cs rfl
  rcases h with ⟨_, same⟩ | ⟨_, _, same, -⟩
  · cases same
    rfl
  · cases same
    rfl

/-- Behind an attribute and blanks there is no equals sign. -/
theorem EndsAttribute.skipBlanks {rest : List Char} (h : EndsAttribute rest) (offset : Nat) :
    ∀ cs, (Cursor.skipBlanks ⟨rest, offset⟩).rest ≠ '=' :: cs := by
  intro cs equals
  rcases h with ⟨_, rfl⟩ | ⟨c, _, rfl, letter⟩
  · rw [Cursor.skipBlanks_of_not _ (by rintro _ _ ⟨⟩; rfl)] at equals
    cases equals
  · obtain ⟨_, blanks⟩ := Cursor.skipBlanks_space (c :: _) offset
      (by rintro _ _ ⟨⟩; exact not_isBlank_of_isLower letter)
    rw [blanks] at equals
    cases equals
    cases letter

theorem legible_abbreviated : Legible abbreviated := by
  rintro ⟨name, value⟩ plain rest offset ends
  unfold abbreviated
  split
  · rename_i short
    obtain ⟨rfl, -⟩ : value = "" ∧ _ := short
    obtain ⟨o, behind, rfl, -, read⟩ := readAttribute_named plain.attributeName rest offset ends.isNameEnd
    exact ⟨_, o, read (ends.skipBlanks o), Cursor.skipBlanks_skipBlanks _⟩
  · exact legible_quoted (name, value) plain rest offset ends

variable {name : List Char} {entry : String × String} {entries : List (String × String)}

theorem PlainName.quote_not_mem (plain : PlainName name) : '"' ∉ name := by
  intro mem
  have inside := plain.inner '"' mem
  cases inside

/-- A written attribute holds the characters of a marker only at its end. -/
theorem of_infix_attribute (plain : PlainName entry.1.toList)
    (inside : valuedMarker <:+: writtenAttribute quoted entry) :
    entry.2 = "" ∧ Marker.host.toList <:+ entry.1.toList := by
  obtain ⟨front, back, whole⟩ := inside
  have marker : '"' ∉ Marker.host.toList ++ ['='] := by decide
  have opening : '"' ∉ ' ' :: (entry.1.toList ++ ['=']) := by simpa using plain.quote_not_mem
  have escaped := not_mem_escapedAttribute entry.2.toList
  -- The two quotes of the marker are the two quotes of the attribute.
  have whole : (front ++ (Marker.host.toList ++ ['='])) ++ '"' :: ('"' :: back) =
      ' ' :: (entry.1.toList ++ ['=']) ++
        '"' :: (entry.2.toList.flatMap escapedAttributeChar ++ ['"']) := by
    simpa [valuedMarker_eq, writtenAttribute, quoted] using whole
  have counted := congrArg (List.count '"') whole
  simp only [List.count_append, List.count_cons_self, List.count_nil,
    List.count_eq_zero_of_not_mem marker, List.count_eq_zero_of_not_mem opening,
    List.count_eq_zero_of_not_mem escaped] at counted
  have before : '"' ∉ front ++ (Marker.host.toList ++ ['=']) := by
    rw [List.mem_append, not_or]
    exact ⟨List.count_eq_zero.1 (by omega), marker⟩
  obtain ⟨begins, ends⟩ := Text.eq_of_append_cons before opening whole
  have ends : [] ++ '"' :: back =
      entry.2.toList.flatMap escapedAttributeChar ++ '"' :: [] := ends
  obtain ⟨empty, -⟩ := Text.eq_of_append_cons List.not_mem_nil escaped ends
  constructor
  · have back := decode_escapedAttribute entry.2.toList
    rw [← empty, decode_nil] at back
    exact String.toList_inj.1 back.symm
  · rw [← List.append_assoc, ← List.cons_append, List.append_left_inj] at begins
    cases front with
    | nil => cases (List.cons.inj begins).1
    | cons c front => exact ⟨front, (List.cons.inj begins).2⟩

theorem shorten_attribute (plain : PlainName entry.1.toList) :
    shorten (writtenAttribute quoted entry) = writtenAttribute abbreviated entry := by
  by_cases short : entry.2 = "" ∧ Marker.host.toList <:+ entry.1.toList
  · obtain ⟨front, name⟩ := short.2
    have free : '"' ∉ ' ' :: front := by
      intro mem
      have inside : '"' ∈ front := by simpa using mem
      exact plain.quote_not_mem (name ▸ List.mem_append_left _ inside)
    have whole : writtenAttribute quoted entry = (' ' :: front) ++ valuedMarker := by
      simp [writtenAttribute, quoted, valuedMarker_eq, short.1, ← name]
    rw [whole, shorten_append (Text.apart_self valuedMarker_borderless), shorten_of_not_mem free,
      shorten_valuedMarker, writtenAttribute, abbreviated, if_pos short, ← name, List.append_nil,
      List.cons_append]
  · rw [shorten_of_absent fun inside => short (of_infix_attribute plain inside),
      writtenAttribute, writtenAttribute, abbreviated, if_neg short]

/-! ## Tags -/

/-- Neither an attribute nor the end of a tag continues a marker. -/
theorem apart_attributes (spell : String × String → List Char) (front : List Char)
    (entries : List (String × String)) :
    Apart valuedMarker front (entries.flatMap (writtenAttribute spell) ++ ['>']) := by
  apply Text.apart_of_head
  cases entries with
  | nil =>
      rintro c ⟨⟩
      decide
  | cons entry entries =>
      rintro c ⟨⟩
      decide

theorem shorten_attributes (entries : List (String × String))
    (plains : ∀ entry ∈ entries, PlainName entry.1.toList) :
    shorten (entries.flatMap (writtenAttribute quoted) ++ ['>']) =
      entries.flatMap (writtenAttribute abbreviated) ++ ['>'] := by
  induction entries with
  | nil => exact shorten_of_not_mem (by decide)
  | cons entry entries ih =>
      have further := ih fun e mem => plains e (List.mem_cons_of_mem entry mem)
      rw [List.flatMap_cons, List.append_assoc, shorten_append (apart_attributes quoted _ entries),
        shorten_attribute (plains entry List.mem_cons_self), further, List.flatMap_cons,
        List.append_assoc]

theorem shorten_opening (plain : PlainName name)
    (plains : ∀ entry ∈ entries, PlainName entry.1.toList) :
    shorten (writtenOpening quoted name entries) = writtenOpening abbreviated name entries := by
  have free : '"' ∉ '<' :: name := by simpa using plain.quote_not_mem
  rw [writtenOpening, ← List.cons_append, shorten_append (apart_attributes quoted _ entries),
    shorten_of_not_mem free, shorten_attributes entries plains]
  rfl

theorem getLast?_opening (spell : String × String → List Char) (name : List Char)
    (entries : List (String × String)) :
    (writtenOpening spell name entries).getLast? = some '>' := by
  rw [writtenOpening, ← List.append_assoc, ← List.cons_append, List.getLast?_concat]

/-- Markup that begins with a less-than sign continues no marker. -/
theorem apart_of_less {front back : List Char} (begins : ∀ c ∈ back.head?, c = '<') :
    Apart valuedMarker front back := by
  apply Text.apart_of_head
  intro c first
  rw [begins c first]
  decide

theorem shorten_closing (plain : PlainName name) :
    shorten (writtenClosing name) = writtenClosing name := by
  refine shorten_of_not_mem ?_
  simpa [writtenClosing] using plain.quote_not_mem

theorem getLast?_closing (name : List Char) : (writtenClosing name).getLast? = some '>' := by
  rw [writtenClosing, ← List.cons_append, ← List.cons_append, List.getLast?_concat]

/-! ## Texts -/

/-- Between these characters nothing is shortened. -/
theorem shorten_framed (front : List Char) {text back : List Char} (opening : '"' ∉ front ∧ 'd' ∉ front)
    (closing : '"' ∉ back) (out : ¬valuedMarker <:+: text) :
    shorten (front ++ (text ++ back)) = front ++ (text ++ back) := by
  have begins : Apart valuedMarker front (text ++ back) := Text.apart_of_first rfl opening.2
  have ends : Apart valuedMarker text back := Text.apart_of_end (c := '"') (by decide) closing
  rw [shorten_append begins, shorten_append ends, shorten_of_not_mem opening.1,
    shorten_of_absent out, shorten_of_not_mem closing]

theorem escapedTextChar_or (c : Char) :
    escapedTextChar c = [c] ∨ ∃ more, escapedTextChar c = '&' :: more ∧ 'd' ∉ '&' :: more := by
  unfold escapedTextChar
  split
  · exact .inr ⟨_, rfl, by decide⟩
  · exact .inr ⟨_, rfl, by decide⟩
  · exact .inr ⟨_, rfl, by decide⟩
  · exact .inl rfl

/-- What begins escaped text without a reference begins the text. -/
theorem prefix_of_escaped {old : List Char} (out : '&' ∉ old) : ∀ {text : List Char},
    old <+: text.flatMap escapedTextChar → old <+: text := by
  induction old with
  | nil => exact fun _ => List.nil_prefix
  | cons o old ih =>
      intro text begins
      cases text with
      | nil => exact begins
      | cons c text =>
          rw [List.flatMap_cons] at begins
          rcases escapedTextChar_or c with plain | ⟨more, reference, -⟩
          · rw [plain, List.singleton_append, List.cons_prefix_cons] at begins
            rw [List.cons_prefix_cons]
            exact ⟨begins.1, ih (fun mem => out (List.mem_cons_of_mem o mem)) begins.2⟩
          · rw [reference, List.cons_append, List.cons_prefix_cons] at begins
            exact (out (by simp [begins.1])).elim

/-- What is found in a text and does not begin in its front is found in its back. -/
theorem infix_of_append {c : Char} {old front back : List Char} (out : c ∉ front)
    (inside : c :: old <:+: front ++ back) : c :: old <:+: back := by
  induction front with
  | nil => exact inside
  | cons d front ih =>
      rw [List.mem_cons, not_or] at out
      rw [List.cons_append, List.infix_cons_iff] at inside
      rcases inside with begins | later
      · exact (out.1 (List.cons_prefix_cons.1 begins).1).elim
      · exact ih out.2 later

/-- Escaping makes no marker. -/
theorem infix_of_escaped {text : List Char}
    (inside : valuedMarker <:+: text.flatMap escapedTextChar) : valuedMarker <:+: text := by
  induction text with
  | nil => exact inside
  | cons c text ih =>
      rw [List.flatMap_cons] at inside
      rcases escapedTextChar_or c with plain | ⟨more, reference, free⟩
      · rw [plain, List.singleton_append, List.infix_cons_iff] at inside
        rw [List.infix_cons_iff]
        rcases inside with begins | later
        · left
          apply prefix_of_escaped (by decide)
          rwa [List.flatMap_cons, plain]
        · exact .inr (ih later)
      · rw [reference] at inside
        rw [List.infix_cons_iff]
        exact .inr (ih (infix_of_append free inside))

/-! ## Trees -/

namespace NodeTree

variable {ι : Type}

/-- No text of a node, values of attributes apart, holds the characters of a marker with
its value. -/
def Unmarked : NodeData → Prop
  | .text value => ¬valuedMarker <:+: value.toList
  | .comment value => ¬valuedMarker <:+: value.toList
  | .doctype value => ¬valuedMarker <:+: value.toList
  | _ => True

variable {t : NodeTree ι}

/-- The markup of anything but a text ends with the end of a tag. -/
theorem getLast?_written (spell : String × String → List Char) (raw : Bool) (h : t.Printable)
    (other : t.isText = false) : (t.written spell raw).getLast? = some '>' := by
  obtain ⟨label, data, children⟩ := t
  cases data with
  | text value => cases other
  | fragment => exact h.elim
  | comment value =>
      have whole : (node label (.comment value) children).written spell raw =
          '<' :: '!' :: '-' :: '-' :: (value.toList ++ ['-', '-']) ++ ['>'] := by
        simp [written]
      rw [whole, List.getLast?_concat]
  | doctype value => exact List.getLast?_concat (l := '<' :: '!' :: value.toList)
  | element name attributes =>
      rw [written]
      split
      · rw [List.append_nil, getLast?_opening]
      · rw [← List.append_assoc, List.getLast?_append, getLast?_closing]
        rfl

theorem head?_written (spell : String × String → List Char) (raw : Bool) (h : t.Printable)
    (other : t.isText = false) : (t.written spell raw).head? = some '<' := by
  obtain ⟨label, data, children⟩ := t
  cases data with
  | text value => cases other
  | fragment => exact h.elim
  | element | comment | doctype => rfl

/-- No marker begins in one of two neighbours and ends in the other. -/
theorem apart_written (spell : String × String → List Char) (raw : Bool) {ts : List (NodeTree ι)}
    (h : PrintableAll (t :: ts)) (parted : Parted (t :: ts)) :
    Apart valuedMarker (t.written spell raw) (writtenAll spell raw ts) := by
  cases text : t.isText with
  | false => exact Text.apart_of_last (by decide) (getLast?_written spell raw h.1 text)
  | true =>
      apply apart_of_less
      intro c first
      cases ts with
      | nil => cases first
      | cons s ts =>
          have other : s.isText = false := by
            have apart := parted.rel_head? (y := s) rfl
            simpa [text] using apart
          have less := head?_written spell raw h.2.1 other
          rw [writtenAll, List.head?_append, less] at first
          cases first
          rfl

mutual

theorem shorten_written (raw : Bool) : (t : NodeTree ι) → t.Printable → t.Each Unmarked →
    shorten (t.written quoted raw) = t.written abbreviated raw
  | node label data children, h, unmarked => by
      cases data with
      | fragment => exact h.elim
      | text value =>
          cases raw with
          | true => exact shorten_of_absent unmarked.1
          | false => exact shorten_of_absent fun inside => unmarked.1 (infix_of_escaped inside)
      | comment value =>
          exact shorten_framed ['<', '!', '-', '-'] (by decide) (by decide) unmarked.1
      | doctype value => exact shorten_framed ['<', '!'] (by decide) (by decide) unmarked.1
      | element name attributes =>
          obtain ⟨own, all⟩ := h
          have last : '>' ∉ valuedMarker.dropLast := by decide
          have opening := getLast?_opening quoted name.toList
            (attributes.map fun entry => (entry.1, entry.2.text))
          have closing := shorten_closing own.plain
          have starts : ∀ inside, Apart valuedMarker inside (writtenClosing name.toList) :=
            fun inside => apart_of_less (by rintro c ⟨⟩; rfl)
          rw [written, written, shorten_append (Text.apart_of_last last opening),
            shorten_opening own.plain own.plains_text]
          split
          · rw [shorten_of_not_mem List.not_mem_nil]
          · rw [shorten_append (starts _), shorten_writtenAll _ children all own.parted unmarked.2, closing]

theorem shorten_writtenAll (raw : Bool) : (ts : List (NodeTree ι)) → PrintableAll ts →
    Parted ts → EachAll Unmarked ts →
    shorten (writtenAll quoted raw ts) = writtenAll abbreviated raw ts
  | [], _, _, _ => shorten_of_not_mem List.not_mem_nil
  | t :: ts, h, parted, unmarked => by
      have here := shorten_written raw t h.1 unmarked.1
      have further := shorten_writtenAll raw ts h.2 parted.tail unmarked.2
      rw [writtenAll, writtenAll, shorten_append (apart_written quoted raw h parted), here, further]

end

end NodeTree

open NodeTree

/-- Abbreviated markup of printable trees is read as the markup itself, as the trees, if no
text, comment or doctype holds the characters of a marker with its value. -/
theorem parse_abbreviate {ι : Type} {ts : List (NodeTree ι)} (parted : Parted ts)
    (all : PrintableAll ts) (unmarked : EachAll Unmarked ts) :
    parse (Compile.abbreviate (printAll false ts)) = (ts.map shape, []) := by
  have readable := all.readable legible_abbreviated
  have lexed := lexes_writtenAll ts readable parted [] (.inl rfl)
  rw [← shorten_writtenAll false ts all parted unmarked, ← toList_printAll,
    ← toList_abbreviate] at lexed
  exact parse_of_lexes parted readable lexed

/-- In a text the characters are not the host marker, and are shortened all the same. -/
example : Compile.abbreviate (printAll false
    [.node () (.element "p" []) [.node () (.text "data-poirot=\"\"") []]]) =
      "<p>data-poirot</p>" := by
  decide +kernel

end Stencil.Markup
