import Stencil.Proofs.Markup.Escaping
import Stencil.Proofs.Text.Cut

/-! # Reading what was written

Every piece of written markup is read back by one step: names, attributes, tags, texts,
comments and doctypes. Offsets are left open, since no tree depends on them.
-/

namespace Stencil.Markup

/-- A name that begins with a small letter and has no capital letter and no character at
which names end. -/
structure PlainName (name : List Char) : Prop where
  first : ∃ c cs, name = c :: cs ∧ c.isLower = true
  small : ∀ c ∈ name, c.isUpper = false
  inner : ∀ c ∈ name, isNameEnd c = false

theorem toLower_of_not_isUpper {c : Char} (h : c.isUpper = false) : c.toLower = c := by
  have outside : ¬ ('A'.val ≤ c.val ∧ c.val ≤ 'Z'.val) := by
    intro bounds
    have upper : c.isUpper = true := decide_eq_true bounds
    rw [h] at upper
    cases upper
  exact dif_neg outside

theorem lowercase_of_small {name : List Char} (small : ∀ c ∈ name, c.isUpper = false) :
    Text.lowercase name = name := by
  unfold Text.lowercase
  conv => rhs; rw [← List.map_id name]
  exact List.map_congr_left fun c mem => toLower_of_not_isUpper (small c mem)

namespace PlainName

variable {name : List Char}

theorem of_all {c : Char} {cs : List Char} (same : name = c :: cs) (letter : c.isLower = true)
    (inner : name.all (fun x => !x.isUpper && !isNameEnd x) = true) : PlainName name := by
  rw [List.all_eq_true] at inner
  refine ⟨⟨c, cs, same, letter⟩, fun x mem => ?_, fun x mem => ?_⟩
  · simpa using (Bool.and_eq_true_iff.1 (inner x mem)).1
  · simpa using (Bool.and_eq_true_iff.1 (inner x mem)).2

/-- The marker of a host is such a name. -/
theorem host : PlainName "data-poirot".toList := .of_all rfl (c := 'd') rfl rfl

theorem lowercase (h : PlainName name) : Text.lowercase name = name := lowercase_of_small h.small

theorem isAlpha (h : PlainName name) : ∃ c cs, name = c :: cs ∧ c.isAlpha = true := by
  obtain ⟨c, cs, same, letter⟩ := h.first
  exact ⟨c, cs, same, Bool.or_eq_true_iff.2 (.inr letter)⟩

theorem not_isBlank (h : PlainName name) {c : Char} (mem : c ∈ name) : isBlank c = false := by
  cases blank : isBlank c with
  | false => rfl
  | true =>
      have inside := h.inner c mem
      rw [isNameEnd_of_isBlank blank] at inside
      cases inside

end PlainName

/-- A name that reading gives to an attribute: its first character may be any that begins neither a
tag nor the end of one, and all is in small letters. -/
structure AttributeName (name : List Char) : Prop where
  first : ∃ c cs, name = c :: cs ∧ isBlank c = false ∧ c ≠ '>' ∧ c ≠ '/' ∧
    (c = '<' → ∀ d ∈ cs.head?, d.isAlpha = false) ∧ ∀ d ∈ cs, isNameEnd d = false
  small : ∀ c ∈ name, c.isUpper = false

theorem PlainName.attributeName {name : List Char} (h : PlainName name) : AttributeName name := by
  obtain ⟨c, cs, rfl, letter⟩ := h.first
  refine ⟨⟨c, cs, rfl, h.not_isBlank List.mem_cons_self, ?_, ?_, ?_, ?_⟩, h.small⟩
  · rintro rfl
    cases letter
  · rintro rfl
    cases letter
  · rintro rfl
    cases letter
  · exact fun d mem => h.inner d (List.mem_cons_of_mem c mem)

/-- An attribute does not begin a tag if its name is followed by what ends names. -/
theorem AttributeName.startsOpenTag {name : List Char} (h : AttributeName name) {rest : List Char}
    (ended : ∀ c cs, rest = c :: cs → isNameEnd c = true) : startsOpenTag (name ++ rest) = false := by
  obtain ⟨c, cs, rfl, -, -, -, less, -⟩ := h.first
  cases begins : Markup.startsOpenTag (c :: cs ++ rest) with
  | false => rfl
  | true =>
      unfold Markup.startsOpenTag at begins
      split at begins
      · rename_i d behind same
        obtain ⟨rfl, whole⟩ := List.cons.inj same
        cases cs with
        | nil =>
            have stops := ended d behind whole
            rw [not_isNameEnd_of_isAlpha begins] at stops
            cases stops
        | cons e cs =>
            obtain ⟨rfl, -⟩ := List.cons.inj whole
            rw [less rfl e rfl] at begins
            cases begins
      · cases begins

/-! ## Runs -/

namespace Cursor

theorem takeWhile_append {p : Char → Bool} (run rest : List Char) (offset : Nat)
    (inside : ∀ c ∈ run, p c = true) (ended : ∀ c cs, rest = c :: cs → p c = false) :
    ∃ o, takeWhile p ⟨run ++ rest, offset⟩ = (run, ⟨rest, o⟩) := by
  refine ⟨offset + Text.byteLength run, ?_⟩
  have taken : (run ++ rest).takeWhile p = run := by
    rw [List.takeWhile_append_of_pos inside]
    cases rest with
    | nil => simp
    | cons c cs => simp [ended c cs rfl]
  have dropped : (run ++ rest).dropWhile p = rest := by
    rw [List.dropWhile_append_of_pos inside]
    cases rest with
    | nil => simp
    | cons c cs => simp [ended c cs rfl]
  simp [takeWhile, taken, dropped]

theorem skipBlanks_of_not {rest : List Char} (offset : Nat)
    (solid : ∀ c cs, rest = c :: cs → isBlank c = false) :
    skipBlanks ⟨rest, offset⟩ = ⟨rest, offset⟩ := by
  cases rest with
  | nil => rfl
  | cons c cs => simp [skipBlanks, takeWhile, solid c cs rfl]

theorem skipBlanks_space (rest : List Char) (offset : Nat)
    (solid : ∀ c cs, rest = c :: cs → isBlank c = false) :
    ∃ o, skipBlanks ⟨' ' :: rest, offset⟩ = ⟨rest, o⟩ := by
  obtain ⟨o, run⟩ := takeWhile_append (p := isBlank) [' '] rest offset
    (List.forall_mem_singleton.2 rfl) solid
  exact ⟨o, congrArg Prod.snd run⟩

theorem drop_one (c : Char) (cs : List Char) (offset : Nat) :
    drop 1 ⟨c :: cs, offset⟩ = ⟨cs, offset + Text.byteLength [c]⟩ := rfl

theorem breakOn?_eq {sep text before after : List Char} (offset : Nat)
    (h : Text.breakOn? sep text = some (before, after)) :
    ∃ o, breakOn? sep ⟨text, offset⟩ = some (before, ⟨after, o⟩) :=
  ⟨_, by rw [breakOn?, h]; rfl⟩

end Cursor

/-! ## Open tags -/

/-- A value between quotes, as it is written behind the name of an attribute. -/
def quoted (entry : String × String) : List Char :=
  '=' :: '"' :: (entry.2.toList.flatMap escapedAttributeChar ++ ['"'])

/-- An attribute, with `spell` for what is written behind its name. -/
def writtenAttribute (spell : String × String → List Char) (entry : String × String) : List Char :=
  ' ' :: (entry.1.toList ++ spell entry)

/-- What stands behind an attribute: the end of the tag, or another attribute. -/
def EndsAttribute (rest : List Char) : Prop :=
  (∃ cs, rest = '>' :: cs) ∨ ∃ c cs, rest = ' ' :: c :: cs ∧ c.isLower = true

/-- Attributes are read back. Blanks behind them may be left to read. -/
def Legible (spell : String × String → List Char) : Prop :=
  ∀ entry, PlainName entry.1.toList → ∀ rest offset, EndsAttribute rest →
    ∃ next o, readAttribute ⟨entry.1.toList ++ (spell entry ++ rest), offset⟩ = (entry, [], next) ∧
      next.skipBlanks = Cursor.skipBlanks ⟨rest, o⟩

theorem readName_plain {name : List Char} (h : PlainName name) (rest : List Char) (offset : Nat)
    (ended : ∀ c cs, rest = c :: cs → isNameEnd c = true) :
    ∃ o, readName ⟨name ++ rest, offset⟩ = (name, ⟨rest, o⟩) := by
  obtain ⟨o, run⟩ := Cursor.takeWhile_append (p := fun ch => !isNameEnd ch) name rest offset
    (fun c mem => by simp [h.inner c mem]) (fun c cs same => by simp [ended c cs same])
  exact ⟨o, by simp [readName, run, h.lowercase]⟩

theorem readValue_written (value : String) (rest : List Char) (offset : Nat) :
    ∃ o, readValue ⟨'"' :: (value.toList.flatMap escapedAttributeChar ++ '"' :: rest), offset⟩ =
      (value, [], ⟨rest, o⟩) := by
  have found := Text.breakOn?_single rest (not_mem_escapedAttribute value.toList)
  obtain ⟨o, broken⟩ := Cursor.breakOn?_eq (offset + Text.byteLength ['"']) found
  refine ⟨o, ?_⟩
  simp [readValue, isQuote, Cursor.drop] at broken ⊢
  rw [broken]
  simp [decode_escapedAttribute]

/-- What is read behind the name of an attribute that is written. -/
theorem readAttribute_named {name : String} (h : AttributeName name.toList) (rest : List Char)
    (offset : Nat) (ended : ∀ c cs, rest = c :: cs → isNameEnd c = true) :
    ∃ o behind, behind = Cursor.skipBlanks ⟨rest, o⟩ ∧
      (∀ cs, behind.rest = '=' :: cs → readAttribute ⟨name.toList ++ rest, offset⟩ =
        ((name, (readValue (behind.drop 1).skipBlanks).1), (readValue (behind.drop 1).skipBlanks).2)) ∧
      ((∀ cs, behind.rest ≠ '=' :: cs) →
        readAttribute ⟨name.toList ++ rest, offset⟩ = ((name, ""), [], behind)) := by
  obtain ⟨c, cs, same, -, -, -, -, inner⟩ := h.first
  have small : Text.lowercase (c :: cs) = c :: cs := same ▸ lowercase_of_small h.small
  obtain ⟨o, run⟩ := Cursor.takeWhile_append (p := fun ch => !isNameEnd ch) cs rest
    (offset + Text.byteLength [c]) (fun d mem => by simp [inner d mem])
    (fun d ds first => by simp [ended d ds first])
  have named : String.ofList (c :: cs) = name := by rw [← same, String.ofList_toList]
  refine ⟨o, Cursor.skipBlanks ⟨rest, o⟩, rfl, fun ds equals => ?_, fun other => ?_⟩
  all_goals
    rw [same]
    unfold readAttribute
    rw [List.cons_append, Cursor.drop_one]
    simp only [run, List.take_succ_cons, List.take_zero, List.cons_append, List.nil_append]
    rw [small, named]
  · rw [equals]
    rfl

/-- An attribute with its value between quotes is read back. -/
theorem readAttribute_quoted {entry : String × String} (h : AttributeName entry.1.toList)
    (rest : List Char) (offset : Nat) :
    ∃ o, readAttribute ⟨entry.1.toList ++ (quoted entry ++ rest), offset⟩ = (entry, [], ⟨rest, o⟩) := by
  obtain ⟨name, value⟩ := entry
  have whole : quoted (name, value) ++ rest =
      '=' :: '"' :: (value.toList.flatMap escapedAttributeChar ++ '"' :: rest) := by
    simp [quoted]
  rw [whole]
  obtain ⟨o₁, behind, here, read, -⟩ := readAttribute_named h
    ('=' :: '"' :: (value.toList.flatMap escapedAttributeChar ++ '"' :: rest)) offset
    (by rintro _ _ ⟨⟩; rfl)
  rw [Cursor.skipBlanks_of_not _ (by rintro _ _ ⟨⟩; rfl)] at here
  subst here
  obtain ⟨o, back⟩ := readValue_written value rest (o₁ + Text.byteLength ['='])
  refine ⟨o, ?_⟩
  rw [read _ rfl, Cursor.drop_one, Cursor.skipBlanks_of_not _ (by rintro _ _ ⟨⟩; rfl), back]

theorem legible_quoted : Legible quoted := by
  intro entry plain rest offset _
  obtain ⟨o, read⟩ := readAttribute_quoted plain.attributeName rest offset
  exact ⟨⟨rest, o⟩, o, read, rfl⟩

theorem readTagBody_end {name : String} {start : Nat} {c : Cursor} {rest : List Char}
    (here : c.skipBlanks.rest = '>' :: rest) :
    readTagBody name start c = ⟨[], false, [], c.skipBlanks.drop 1⟩ := by
  rw [readTagBody]
  split <;> simp_all

theorem readTagBody_attribute {name : String} {start : Nat} {c : Cursor} {d : Char}
    {ds : List Char} (here : c.skipBlanks.rest = d :: ds) (notEnd : d ≠ '>') (notSlash : d ≠ '/')
    (notTag : startsOpenTag (d :: ds) = false) :
    readTagBody name start c =
      let body := readTagBody name start (readAttribute c.skipBlanks).2.2
      ⟨(readAttribute c.skipBlanks).1 :: body.attributes, body.selfClosing,
        (readAttribute c.skipBlanks).2.1 ++ body.flaws, body.next⟩ := by
  have notEnd' := Ne.symm notEnd
  have notSlash' := Ne.symm notSlash
  rw [readTagBody]
  split <;> simp_all

/-- Blanks in front do not count. -/
theorem readTagBody_skipBlanks (name : String) (start : Nat) {c d : Cursor}
    (same : c.skipBlanks = d.skipBlanks) : readTagBody name start c = readTagBody name start d := by
  rw [readTagBody.eq_1 name start c, readTagBody.eq_1 name start d]
  simp only [same]
  rw [same]

theorem endsAttribute_written {spell : String × String → List Char}
    {entries : List (String × String)} (plain : ∀ entry ∈ entries, PlainName entry.1.toList)
    (rest : List Char) : EndsAttribute (entries.flatMap (writtenAttribute spell) ++ '>' :: rest) := by
  cases entries with
  | nil => exact .inl ⟨rest, rfl⟩
  | cons entry entries =>
      obtain ⟨c, cs, same, letter⟩ := (plain entry (by simp)).first
      right
      rw [List.flatMap_cons, writtenAttribute, same]
      exact ⟨c, _, rfl, letter⟩

theorem readTagBody_nil (name : String) (start : Nat) (rest : List Char) (offset : Nat) :
    ∃ o, readTagBody name start ⟨'>' :: rest, offset⟩ = ⟨[], false, [], ⟨rest, o⟩⟩ := by
  have here : Cursor.skipBlanks ⟨'>' :: rest, offset⟩ = ⟨'>' :: rest, offset⟩ :=
    Cursor.skipBlanks_of_not _ (by rintro _ _ ⟨⟩; rfl)
  refine ⟨offset + Text.byteLength ['>'], ?_⟩
  rw [readTagBody_end (congrArg Cursor.rest here), here, Cursor.drop_one]

/-- An attribute that is read back comes before those that stand behind it. -/
theorem readTagBody_cons {entry : String × String} (own : AttributeName entry.1.toList)
    {written behind : List Char} (notTag : startsOpenTag (entry.1.toList ++ written) = false)
    (read : ∀ offset, ∃ next o, readAttribute ⟨entry.1.toList ++ written, offset⟩ = (entry, [], next) ∧
      next.skipBlanks = Cursor.skipBlanks ⟨behind, o⟩) (name : String) (start offset : Nat) :
    ∃ o, readTagBody name start ⟨' ' :: (entry.1.toList ++ written), offset⟩ =
      let body := readTagBody name start ⟨behind, o⟩
      ⟨entry :: body.attributes, body.selfClosing, body.flaws, body.next⟩ := by
  obtain ⟨c, cs, same, solid, notEnd, notSlash, -⟩ := own.first
  have letters : entry.1.toList ++ written = c :: (cs ++ written) := by rw [same, List.cons_append]
  obtain ⟨o₁, here⟩ := Cursor.skipBlanks_space (entry.1.toList ++ written) offset (by
    intro d ds first
    rw [letters] at first
    cases first
    exact solid)
  obtain ⟨next, o, here', blanks⟩ := read o₁
  refine ⟨o, ?_⟩
  rw [readTagBody_attribute ((congrArg Cursor.rest here).trans letters) notEnd notSlash
    (letters ▸ notTag), here, here', readTagBody_skipBlanks name start blanks]
  rfl

theorem readTagBody_written {spell : String × String → List Char} (legible : Legible spell)
    (name : String) (start : Nat) (rest : List Char) (entries : List (String × String)) :
    ∀ offset, (∀ entry ∈ entries, PlainName entry.1.toList) →
      ∃ o, readTagBody name start
          ⟨entries.flatMap (writtenAttribute spell) ++ '>' :: rest, offset⟩ =
        ⟨entries, false, [], ⟨rest, o⟩⟩ := by
  induction entries with
  | nil => exact fun offset _ => readTagBody_nil name start rest offset
  | cons entry entries ih =>
      intro offset plain
      obtain ⟨own, others⟩ := List.forall_mem_cons.1 plain
      obtain ⟨c, cs, same, letter⟩ := own.first
      have notTag (more : List Char) : startsOpenTag (entry.1.toList ++ more) = false := by
        rw [same, List.cons_append]
        unfold startsOpenTag
        split
        · rename_i begins
          obtain ⟨rfl, -⟩ := List.cons.inj begins
          cases letter
        · rfl
      obtain ⟨o₁, here⟩ := readTagBody_cons own.attributeName (notTag _) (fun o =>
        legible entry own _ o (endsAttribute_written others rest)) name start offset
      obtain ⟨o, further⟩ := ih o₁ others
      refine ⟨o, ?_⟩
      have whole : (entry :: entries).flatMap (writtenAttribute spell) ++ '>' :: rest =
          ' ' :: (entry.1.toList ++ (spell entry ++
            (entries.flatMap (writtenAttribute spell) ++ '>' :: rest))) := by
        simp [writtenAttribute]
      rw [whole, here, further]

/-! ## Content that is read as it stands -/

/-- In a text no closing tag of the element `name` begins, whatever follows the text. -/
def NoClosing (name text : List Char) : Prop :=
  ∀ front middle back, text = front ++ middle ++ back →
    Text.lowercase middle = '<' :: '/' :: name → ∃ c cs, back = c :: cs ∧ isNameEnd c = false

/-- The closing tag of the element `name`, as it is written. -/
def writtenClosing (name : List Char) : List Char := '<' :: '/' :: (name ++ ['>'])

theorem toLower_eq_less {c : Char} (h : c.toLower = '<') : c = '<' := by
  cases upper : c.isUpper with
  | false => rwa [toLower_of_not_isUpper upper] at h
  | true =>
      have bounds : 'A'.val ≤ c.val ∧ c.val ≤ 'Z'.val := of_decide_eq_true upper
      have lowered : c.toLower.val = c.val + ('a'.val - 'A'.val) :=
        congrArg Char.val (dif_pos bounds)
      rw [h] at lowered
      have code : (c.val + ('a'.val - 'A'.val)).toNat = '<'.val.toNat :=
        congrArg UInt32.toNat lowered.symm
      have low := UInt32.le_iff_toNat_le.1 bounds.1
      have high := UInt32.le_iff_toNat_le.1 bounds.2
      simp [UInt32.toNat_add] at code low high
      omega

theorem noClosing_of_not_mem {name text : List Char} (out : '<' ∉ text) : NoClosing name text := by
  intro front middle back whole closing
  cases middle with
  | nil => cases closing
  | cons c middle =>
      have less : c = '<' := toLower_eq_less (List.cons.inj closing).1
      exact (out (by simp [whole, less])).elim

theorem not_closesElement {name text : List Char} (plain : PlainName name)
    (free : NoClosing name text) (rest : List Char) {front back : List Char}
    (whole : text = front ++ back) (some_back : back ≠ []) :
    closesElement name (back ++ (writtenClosing name ++ rest)) = false := by
  cases closes : closesElement name (back ++ (writtenClosing name ++ rest)) with
  | false => rfl
  | true =>
      obtain ⟨tag, ended⟩ := Bool.and_eq_true_iff.1 closes
      rw [beq_iff_eq] at tag
      by_cases long : name.length + 2 ≤ back.length
      · rw [List.take_append_of_le_length long] at tag
        obtain ⟨c, cs, next, inside⟩ := free front (back.take (name.length + 2))
          (back.drop (name.length + 2)) (by rw [whole, List.append_assoc, List.take_append_drop]) tag
        rw [List.drop_append_of_le_length long, next] at ended
        simp [inside] at ended
      · -- A tag that begins inside and ends behind the text would have a second `<`.
        cases back with
        | nil => exact (some_back rfl).elim
        | cons b back =>
            have place := congrArg (·[back.length + 1]?) tag
            simp only [List.length_cons] at long
            have less : ('/' :: name)[back.length]? = some '<' := by
              rw [List.getElem?_cons_succ] at place
              rw [← place, Text.lowercase, List.getElem?_map, List.getElem?_take_of_lt (by omega),
                List.cons_append, List.getElem?_cons_succ, List.getElem?_append_right (Nat.le_refl _),
                Nat.sub_self]
              rfl
            rcases List.mem_cons.1 (List.mem_of_getElem? less) with same | mem
            · cases same
            · have inside := plain.inner '<' mem
              cases inside

theorem rawRun_written {name text : List Char} (plain : PlainName name)
    (free : NoClosing name text) (rest : List Char) :
    rawRun name (text ++ (writtenClosing name ++ rest)) = (text, writtenClosing name ++ rest) := by
  have closes : closesElement name (writtenClosing name ++ rest) = true := by
    have tag : Text.lowercase ('<' :: '/' :: name) = '<' :: '/' :: name := by
      have own := plain.lowercase
      unfold Text.lowercase at own ⊢
      rw [List.map_cons, List.map_cons, own]
      rfl
    simp [closesElement, writtenClosing, tag, isNameEnd]
  have later : ∀ front back, text = front ++ back →
      rawRun name (back ++ (writtenClosing name ++ rest)) = (back, writtenClosing name ++ rest) := by
    intro front back
    induction back generalizing front with
    | nil =>
        intro _
        simp only [List.nil_append, writtenClosing, List.cons_append] at closes ⊢
        rw [rawRun, closes, if_pos rfl]
    | cons c back ih =>
        intro whole
        have here := not_closesElement plain free rest whole (by simp)
        have further := ih (front ++ [c]) (by rw [whole]; simp)
        rw [List.cons_append] at here ⊢
        rw [rawRun, here, further]
        rfl
  exact later [] text rfl

end Stencil.Markup
