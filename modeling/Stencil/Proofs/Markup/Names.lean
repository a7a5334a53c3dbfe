import Stencil.Proofs.Markup.Reading

/-! # Names that are read

The names of tags and attributes that reading can give. They are in small letters, hold nothing
that ends a name and begin as a tag or an attribute may begin; so attributes under these names are
read back when their values stand between quotes.
-/

namespace Stencil.Markup

/-! ## Small letters -/

theorem exists_upper {c : Char} (h : c.isUpper = true) : ∃ n ∈ List.range' 65 26, c = Char.ofNat n := by
  have bounds : 'A'.val ≤ c.val ∧ c.val ≤ 'Z'.val := of_decide_eq_true h
  have low := UInt32.le_iff_toNat_le.1 bounds.1
  have high := UInt32.le_iff_toNat_le.1 bounds.2
  refine ⟨c.toNat, List.mem_range'_1.2 ⟨low, ?_⟩, (Char.ofNat_toNat c).symm⟩
  exact Nat.lt_succ_of_le high

theorem isLower_toLower_of_isUpper {c : Char} (h : c.isUpper = true) : c.toLower.isLower = true := by
  have all : ∀ n ∈ List.range' 65 26, (Char.ofNat n).toLower.isLower = true := by decide
  obtain ⟨n, mem, rfl⟩ := exists_upper h
  exact all n mem

/-- Small letters in place of capital ones: the character itself or a small letter. -/
theorem toLower_eq_or (c : Char) : c.toLower = c ∧ c.isUpper = false ∨ c.toLower.isLower = true := by
  cases upper : c.isUpper with
  | false => exact .inl ⟨toLower_of_not_isUpper upper, rfl⟩
  | true => exact .inr (isLower_toLower_of_isUpper upper)

theorem isAlpha_of_isLower {c : Char} (h : c.isLower = true) : c.isAlpha = true :=
  Bool.or_eq_true_iff.2 (.inr h)

theorem isUpper_toLower (c : Char) : c.toLower.isUpper = false := by
  have all : ∀ n ∈ List.range' 65 26, (Char.ofNat n).toLower.isUpper = false := by decide
  cases upper : c.isUpper with
  | false => rw [toLower_of_not_isUpper upper, upper]
  | true =>
      obtain ⟨n, mem, rfl⟩ := exists_upper upper
      exact all n mem

theorem isNameEnd_toLower {c : Char} (h : isNameEnd c = false) : isNameEnd c.toLower = false := by
  rcases toLower_eq_or c with ⟨same, -⟩ | small
  · rwa [same]
  · exact not_isNameEnd_of_isAlpha (isAlpha_of_isLower small)

theorem isLower_toLower {c : Char} (h : c.isAlpha = true) : c.toLower.isLower = true := by
  rcases toLower_eq_or c with ⟨same, capital⟩ | small
  · rw [same]
    exact (Bool.or_eq_true_iff.1 h).resolve_left (by simp [capital])
  · exact small

/-- A character that is no letter stays as it is. -/
theorem toLower_of_not_isAlpha {c : Char} (h : c.isAlpha = false) : c.toLower = c :=
  toLower_of_not_isUpper (Bool.or_eq_false_iff.1 h).1

theorem small_lowercase (cs : List Char) : ∀ c ∈ Text.lowercase cs, c.isUpper = false := by
  intro c mem
  obtain ⟨d, -, rfl⟩ := List.mem_map.1 mem
  exact isUpper_toLower d

theorem inner_lowercase {cs : List Char} (h : ∀ c ∈ cs, isNameEnd c = false) :
    ∀ c ∈ Text.lowercase cs, isNameEnd c = false := by
  intro c mem
  obtain ⟨d, inside, rfl⟩ := List.mem_map.1 mem
  exact isNameEnd_toLower (h d inside)

theorem inner_takeWhile (cs : List Char) : ∀ c ∈ cs.takeWhile (fun ch => !isNameEnd ch), isNameEnd c = false :=
  fun c mem => by simpa using List.all_eq_true.1 List.all_takeWhile c mem

/-! ## Names of tags and attributes -/

/-- A name that is read where a letter stands. -/
theorem plainName_readName {c : Char} (letter : c.isAlpha = true) (cs : List Char) (offset : Nat) :
    PlainName (readName ⟨c :: cs, offset⟩).1 := by
  have first : (!isNameEnd c) = true := by simp [not_isNameEnd_of_isAlpha letter]
  have run : (readName ⟨c :: cs, offset⟩).1 =
      Text.lowercase ((c :: cs).takeWhile fun ch => !isNameEnd ch) := rfl
  rw [run]
  refine ⟨?_, small_lowercase _, inner_lowercase (inner_takeWhile _)⟩
  rw [List.takeWhile_cons_of_pos (p := fun ch => !isNameEnd ch) first]
  exact ⟨c.toLower, _, rfl, isLower_toLower letter⟩

theorem readAttribute_name (c : Cursor) : (readAttribute c).1.1 = String.ofList (Text.lowercase
    (c.rest.take 1 ++ (c.rest.drop 1).takeWhile fun ch => !isNameEnd ch)) := by
  unfold readAttribute
  dsimp only
  split <;> rfl

/-- A name that is read where no tag begins or ends and no blank stands. -/
theorem attributeName_readAttribute {here : Cursor} {c : Char} {cs : List Char} (rest : here.rest = c :: cs)
    (solid : isBlank c = false) (notEnd : c ≠ '>') (notSlash : c ≠ '/')
    (notTag : startsOpenTag (c :: cs) = false) : AttributeName (readAttribute here).1.1.toList := by
  have run := inner_takeWhile cs
  have name : (readAttribute here).1.1.toList =
      c.toLower :: Text.lowercase (cs.takeWhile fun ch => !isNameEnd ch) := by
    rw [readAttribute_name, rest, String.toList_ofList]
    rfl
  rw [name]
  refine ⟨⟨_, _, rfl, ?_, ?_, ?_, ?_, inner_lowercase run⟩, small_lowercase (c :: _)⟩
  · rcases toLower_eq_or c with ⟨same, -⟩ | small
    · rwa [same]
    · cases blank : isBlank c.toLower with
      | false => rfl
      | true =>
          have inside := not_isNameEnd_of_isAlpha (isAlpha_of_isLower small)
          rw [isNameEnd_of_isBlank blank] at inside
          cases inside
  · rcases toLower_eq_or c with ⟨same, -⟩ | small
    · rwa [same]
    · rintro ends
      rw [ends] at small
      cases small
  · rcases toLower_eq_or c with ⟨same, -⟩ | small
    · rwa [same]
    · rintro ends
      rw [ends] at small
      cases small
  · rintro less d first
    obtain rfl := toLower_eq_less less
    cases cs with
    | nil => cases first
    | cons e cs =>
        have other : e.isAlpha = false := notTag
        rw [List.takeWhile_cons] at first
        split at first
        · cases first
          rwa [toLower_of_not_isAlpha other]
        · cases first

theorem head_skipBlanks {c : Cursor} {d : Char} {ds : List Char} (h : c.skipBlanks.rest = d :: ds) :
    isBlank d = false := by
  have stop := List.head?_dropWhile_not isBlank c.rest
  rw [show c.rest.dropWhile isBlank = d :: ds from h] at stop
  exact stop

/-- All attributes of a tag that is read have such names. -/
theorem attributeName_readTagBody (name : String) (start : Nat) (c : Cursor) :
    ∀ entry ∈ (readTagBody name start c).attributes, AttributeName entry.1.toList := by
  fun_induction readTagBody name start c with
  | case1 | case2 | case3 | case5 => exact List.forall_mem_nil _
  | case4 _ _ _ _ _ _ _ ih => exact ih
  | case6 c here skipped d ds notEnd notSlashEnd notSlash rest notTag shorter body ih =>
      rw [rest, Bool.not_eq_true] at notTag
      exact List.forall_mem_cons.2
        ⟨attributeName_readAttribute rest (head_skipBlanks rest) notEnd notSlash notTag, ih⟩

/-! ## Tokens -/

/-- The names in an open tag are those that reading can give. -/
def Lexeme.Named : Lexeme → Prop
  | openTag name entries _ => PlainName name.toList ∧ ∀ entry ∈ entries, AttributeName entry.1.toList
  | _ => True

theorem named_readOpenTag {start offset : Nat} {c : Char} {cs : List Char} (letter : c.isAlpha = true) :
    ∀ token ∈ (readOpenTag start ⟨c :: cs, offset⟩).tokens, token.lexeme.Named := by
  have plain := plainName_readName letter cs offset
  have tag (body : TagBody) (same : body = readTagBody (String.ofList (readName ⟨c :: cs, offset⟩).1) start
      (readName ⟨c :: cs, offset⟩).2) : (Lexeme.openTag (String.ofList (readName ⟨c :: cs, offset⟩).1)
        body.attributes body.selfClosing).Named := by
    subst same
    exact ⟨by rwa [String.toList_ofList], attributeName_readTagBody _ _ _⟩
  have raw (name : List Char) (decoded : Bool) (next : Cursor) :
      ∀ token ∈ (readRaw name decoded next).tokens, token.lexeme.Named := by
    unfold readRaw
    dsimp only
    split
    · nofun
    · exact List.forall_mem_singleton.2 trivial
  unfold readOpenTag
  dsimp only
  split
  · exact List.forall_mem_singleton.2 (tag _ rfl)
  · split
    · exact List.forall_mem_singleton.2 (tag _ rfl)
    · exact List.forall_mem_cons.2 ⟨tag _ rfl, raw _ _ _⟩

theorem named_readStep (c : Cursor) : ∀ token ∈ (readStep c).tokens, token.lexeme.Named := by
  have doctype (start : Nat) (d : Cursor) : ∀ token ∈ (readDoctype start d).tokens, token.lexeme.Named := by
    unfold readDoctype
    split <;> exact List.forall_mem_singleton.2 trivial
  unfold readStep
  split
  · unfold readComment
    split <;> exact List.forall_mem_singleton.2 trivial
  · exact doctype _ _
  · exact doctype _ _
  · split
    · unfold readCloseTag
      dsimp only
      split <;> exact List.forall_mem_singleton.2 trivial
    · split
      · rename_i starts
        unfold startsOpenTag at starts
        split at starts
        · rename_i d ds same
          have behind : c.drop 1 = ⟨d :: ds, (c.drop 1).offset⟩ := by
            rw [Cursor.drop, same]
            rfl
          rw [behind]
          exact named_readOpenTag starts
        · cases starts
      · exact List.forall_mem_singleton.2 trivial

theorem named_readAll (c : Cursor) : ∀ token ∈ (readAll c).1, token.lexeme.Named := by
  fun_induction readAll c with
  | case1 => nofun
  | case2 c some_rest shorter tokens flaws rest ih =>
      rw [rest] at ih
      exact List.forall_mem_append.2 ⟨named_readStep c, ih⟩

theorem named_mergeTexts {tokens : List Token} (h : ∀ token ∈ tokens, token.lexeme.Named) :
    ∀ token ∈ mergeTexts tokens, token.lexeme.Named := by
  induction tokens with
  | nil => exact h
  | cons token tokens ih =>
      obtain ⟨own, others⟩ := List.forall_mem_cons.1 h
      have further := ih others
      rw [mergeTexts]
      split
      · rename_i merged
        rw [merged] at further
        exact List.forall_mem_cons.2 ⟨trivial, (List.forall_mem_cons.1 further).2⟩
      · exact List.forall_mem_cons.2 ⟨own, further⟩

theorem named_tokenize (text : String) : ∀ token ∈ (tokenize text).1, token.lexeme.Named :=
  named_mergeTexts (named_readAll _)

/-- The name of a tag in some text. -/
def IsTagName (name : String) : Prop :=
  ∃ text, ∃ token ∈ (tokenize text).1, ∃ entries closed, token.lexeme = .openTag name entries closed

/-- The name of an attribute of a tag in some text. -/
def IsAttributeName (name : String) : Prop :=
  ∃ text, ∃ token ∈ (tokenize text).1, ∃ tag entries closed, token.lexeme = .openTag tag entries closed ∧
    name ∈ entries.map Prod.fst

theorem IsTagName.plain {name : String} (h : IsTagName name) : PlainName name.toList := by
  obtain ⟨text, token, mem, entries, closed, same⟩ := h
  have named := named_tokenize text token mem
  rw [same] at named
  exact named.1

theorem IsAttributeName.attributeName {name : String} (h : IsAttributeName name) :
    AttributeName name.toList := by
  obtain ⟨text, token, mem, tag, entries, closed, same, listed⟩ := h
  have named := named_tokenize text token mem
  rw [same] at named
  obtain ⟨entry, there, rfl⟩ := List.mem_map.1 listed
  exact named.2 entry there

/-! ## Reading back -/

theorem readTagBody_quoted (name : String) (start : Nat) (rest : List Char) (entries : List (String × String))
    (named : ∀ entry ∈ entries, AttributeName entry.1.toList) : ∀ offset, ∃ o, readTagBody name start
      ⟨entries.flatMap (writtenAttribute quoted) ++ '>' :: rest, offset⟩ = ⟨entries, false, [], ⟨rest, o⟩⟩ := by
  induction entries with
  | nil => exact readTagBody_nil name start rest
  | cons entry entries ih =>
      intro offset
      obtain ⟨own, others⟩ := List.forall_mem_cons.1 named
      have whole : (entry :: entries).flatMap (writtenAttribute quoted) ++ '>' :: rest =
          ' ' :: (entry.1.toList ++ (quoted entry ++
            (entries.flatMap (writtenAttribute quoted) ++ '>' :: rest))) := by
        simp [writtenAttribute]
      have notTag (more : List Char) : startsOpenTag (entry.1.toList ++ (quoted entry ++ more)) = false :=
        own.startsOpenTag fun c cs begins => by
          obtain ⟨rfl, -⟩ := List.cons.inj begins
          rfl
      obtain ⟨o₁, here⟩ := readTagBody_cons own (notTag _) (fun o => by
        obtain ⟨o', read⟩ := readAttribute_quoted own
          (entries.flatMap (writtenAttribute quoted) ++ '>' :: rest) o
        exact ⟨_, o', read, rfl⟩) name start offset
      obtain ⟨o, further⟩ := ih others o₁
      exact ⟨o, by rw [whole, here, further]⟩

end Stencil.Markup
