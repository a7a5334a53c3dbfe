import Mathlib.Data.List.Induction
import Stencil.Proofs.Markup.Escaping

/-! # Well-formed references

Decoding copies a text from left to right and replaces the references in it. What counts as a
reference is said by a grammar of bodies: names, and code points in digits. Reading is as strict
as the grammar but for one thing: it lets a plus sign stand before the digits.
-/

namespace Stencil.Markup

/-! ## Numbers -/

/-- A row of at least one digit, and the number that it writes. -/
inductive Numeral (base : Nat) : List Char → Nat → Prop where
  | digit {c : Char} {v : Nat} (value : digit? base c = some v) : Numeral base [c] v
  | more {cs : List Char} {n : Nat} {c : Char} {v : Nat} (front : Numeral base cs n)
      (value : digit? base c = some v) : Numeral base (cs ++ [c]) (base * n + v)

namespace Numeral

variable {base n : Nat} {cs : List Char}

theorem value_of_mem (h : Numeral base cs n) {c : Char} (mem : c ∈ cs) :
    ∃ v, digit? base c = some v := by
  induction h with
  | digit value =>
      rw [List.mem_singleton.1 mem]
      exact ⟨_, value⟩
  | more _ value ih =>
      rcases List.mem_append.1 mem with mem | mem
      · exact ih mem
      · rw [List.mem_singleton.1 mem]
        exact ⟨_, value⟩

theorem ne_nil (h : Numeral base cs n) : cs ≠ [] := by
  cases h <;> simp

/-- A character that is no digit does not occur among digits. -/
theorem not_mem (h : Numeral base cs n) {c : Char} (other : digit? base c = none) : c ∉ cs := by
  intro mem
  obtain ⟨v, value⟩ := h.value_of_mem mem
  rw [other] at value
  cases value

/-- No row of digits begins with a character that is no digit. -/
theorem ne_cons (h : Numeral base cs n) {c : Char} (other : digit? base c = none)
    (rest : List Char) : cs ≠ c :: rest := fun same => h.not_mem other (by simp [same])

end Numeral

theorem digit?_eq_none {base : Nat} {c : Char}
    (h : c = '+' ∨ c = ';' ∨ c = 'x' ∨ c = 'X') : digit? base c = none := by
  rcases h with rfl | rfl | rfl | rfl <;> rfl

theorem foldlM_digits_iff {base : Nat} {cs : List Char} {n : Nat} (some_digit : cs ≠ []) :
    cs.foldlM (fun n c => (digit? base c).map (base * n + ·)) 0 = some n ↔ Numeral base cs n := by
  constructor
  · intro h
    induction cs using List.reverseRecOn generalizing n with
    | nil => exact (some_digit rfl).elim
    | append_singleton cs c ih =>
        obtain ⟨m, front, last⟩ := Option.bind_eq_some_iff.1 ((List.foldlM_append ..).symm.trans h)
        obtain ⟨v, value, rfl⟩ := Option.map_eq_some_iff.1 (by simpa using last)
        by_cases first : cs = []
        · subst first
          cases front
          simpa using Numeral.digit value
        · exact .more (ih first front) value
  · intro h
    induction h with
    | digit value => simp [value]
    | @more cs n c v front value ih => simp [List.foldlM_append, ih front.ne_nil, value]

theorem number?_eq_some_iff {base : Nat} {cs : List Char} {n : Nat} :
    number? base cs = some n ↔
      Numeral base cs n ∨ ∃ digits, cs = '+' :: digits ∧ Numeral base digits n := by
  have row : ∀ digits : List Char,
      (if digits.isEmpty then none
        else digits.foldlM (fun n c => (digit? base c).map (base * n + ·)) 0) = some n ↔
        Numeral base digits n := by
    intro digits
    cases digits with
    | nil => exact ⟨nofun, fun h => (h.ne_nil rfl).elim⟩
    | cons c digits => exact foldlM_digits_iff (by simp)
  unfold number?
  split
  · rename_i digits
    dsimp only
    rw [row digits]
    refine ⟨fun h => .inr ⟨digits, rfl, h⟩, fun h => ?_⟩
    rcases h with h | ⟨ds, same, h⟩
    · exact (h.ne_cons (digit?_eq_none (.inl rfl)) digits rfl).elim
    · cases same
      exact h
  · rename_i unsigned
    dsimp only
    rw [row cs]
    refine ⟨.inl, fun h => ?_⟩
    rcases h with h | ⟨ds, same, h⟩
    · exact h
    · exact (unsigned ds same).elim

theorem toNat_ofNat_of_valid {n : Nat} (valid : n.isValidChar) : (Char.ofNat n).toNat = n := by
  unfold Char.ofNat
  rw [dif_pos valid]
  rfl

theorem scalar?_eq_some_iff {n : Nat} {c : Char} : scalar? n = some c ↔ c.toNat = n := by
  unfold scalar?
  split
  · rename_i valid
    rw [Option.some_inj]
    constructor
    · rintro rfl
      exact toNat_ofNat_of_valid valid
    · rintro rfl
      exact Char.ofNat_toNat c
  · rename_i invalid
    refine ⟨nofun, fun same => ?_⟩
    exact (invalid (same ▸ c.valid)).elim

/-! ## Bodies of references -/

/-- The body of a well-formed reference, and the character that it denotes: its name, or its
code point in decimal or hexadecimal digits. -/
inductive Denotes : List Char → Char → Prop where
  | named {name : String} {c : Char} (listed : (name, c) ∈ namedCharacters) :
      Denotes name.toList c
  | decimal {digits : List Char} {c : Char} (number : Numeral 10 digits c.toNat) :
      Denotes ('#' :: digits) c
  | hexadecimal {mark : Char} {digits : List Char} {c : Char} (marked : mark = 'x' ∨ mark = 'X')
      (number : Numeral 16 digits c.toNat) : Denotes ('#' :: mark :: digits) c

/-- What is read as the body of a reference: a well-formed one, also with a plus sign before its
digits. -/
inductive ReadAs : List Char → Char → Prop where
  | plain {body : List Char} {c : Char} (denotes : Denotes body c) : ReadAs body c
  | decimal {digits : List Char} {c : Char} (number : Numeral 10 digits c.toNat) :
      ReadAs ('#' :: '+' :: digits) c
  | hexadecimal {mark : Char} {digits : List Char} {c : Char} (marked : mark = 'x' ∨ mark = 'X')
      (number : Numeral 16 digits c.toNat) : ReadAs ('#' :: mark :: '+' :: digits) c

theorem entity?_decimal {digits : List Char} (x : ∀ rest, digits ≠ 'x' :: rest)
    (X : ∀ rest, digits ≠ 'X' :: rest) :
    entity? ('#' :: digits) = (number? 10 digits).bind scalar? := by
  unfold entity?
  split
  · rename_i same
    exact (x _ (List.cons.inj same).2).elim
  · rename_i same
    exact (X _ (List.cons.inj same).2).elim
  · rename_i same
    rw [(List.cons.inj same).2]
  · rename_i none_other
    exact (none_other digits rfl).elim

theorem entity?_hexadecimal {mark : Char} (marked : mark = 'x' ∨ mark = 'X') (digits : List Char) :
    entity? ('#' :: mark :: digits) = (number? 16 digits).bind scalar? := by
  rcases marked with rfl | rfl <;> rfl

theorem entity?_named : ∀ entry ∈ namedCharacters, entity? entry.1.toList = some entry.2 := by
  decide

theorem scalar_of_number {base : Nat} {digits : List Char} {c : Char} :
    (number? base digits).bind scalar? = some c ↔
      Numeral base digits c.toNat ∨ ∃ ds, digits = '+' :: ds ∧ Numeral base ds c.toNat := by
  rw [Option.bind_eq_some_iff, ← number?_eq_some_iff]
  constructor
  · rintro ⟨n, number, scalar⟩
    rwa [scalar?_eq_some_iff.1 scalar]
  · exact fun number => ⟨_, number, scalar?_eq_some_iff.2 rfl⟩

theorem entity?_eq_some_iff {body : List Char} {c : Char} :
    entity? body = some c ↔ ReadAs body c := by
  constructor
  · intro h
    unfold entity? at h
    split at h
    · rcases scalar_of_number.1 h with number | ⟨ds, rfl, number⟩
      · exact .plain (.hexadecimal (.inl rfl) number)
      · exact .hexadecimal (.inl rfl) number
    · rcases scalar_of_number.1 h with number | ⟨ds, rfl, number⟩
      · exact .plain (.hexadecimal (.inr rfl) number)
      · exact .hexadecimal (.inr rfl) number
    · rcases scalar_of_number.1 h with number | ⟨ds, rfl, number⟩
      · exact .plain (.decimal number)
      · exact .decimal number
    · obtain ⟨entry, found, rfl⟩ := Option.map_eq_some_iff.1 h
      have same := List.find?_some found
      rw [← eq_of_beq same]
      exact .plain (.named (List.mem_of_find?_eq_some found))
  · rintro (denotes | number | ⟨marked, number⟩)
    · cases denotes with
      | named listed => exact entity?_named _ listed
      | decimal number =>
          rw [entity?_decimal (number.ne_cons (digit?_eq_none (by simp)))
            (number.ne_cons (digit?_eq_none (by simp)))]
          exact scalar_of_number.2 (.inl number)
      | hexadecimal marked number =>
          rw [entity?_hexadecimal marked]
          exact scalar_of_number.2 (.inl number)
    · rw [entity?_decimal (by simp) (by simp)]
      exact scalar_of_number.2 (.inr ⟨_, rfl, number⟩)
    · rw [entity?_hexadecimal marked]
      exact scalar_of_number.2 (.inr ⟨_, rfl, number⟩)

/-- No body of a reference holds a semicolon. -/
theorem ReadAs.not_mem {body : List Char} {c : Char} (h : ReadAs body c) : ';' ∉ body := by
  have named : ∀ entry ∈ namedCharacters, ';' ∉ entry.1.toList := by decide
  have row : ∀ {base n : Nat} {digits : List Char}, Numeral base digits n → ';' ∉ digits :=
    fun number => number.not_mem (digit?_eq_none (by simp))
  have other : ∀ {mark : Char}, mark = 'x' ∨ mark = 'X' → ';' ≠ mark := by
    rintro mark (rfl | rfl) <;> decide
  rcases h with denotes | number | ⟨marked, number⟩
  · cases denotes with
    | named listed => exact named _ listed
    | decimal number => simp [row number]
    | hexadecimal marked number => simp [row number, other marked]
  · simp [row number]
  · simp [row number, other marked]

/-! ## References -/

/-- A text, read behind an ampersand, begins with the body of a reference and its semicolon. -/
def Refers (G : List Char → Char → Prop) (cs : List Char) (c : Char) (rest : List Char) : Prop :=
  ∃ body, cs = body ++ ';' :: rest ∧ 1 ≤ Text.byteLength body ∧ Text.byteLength body ≤ 10 ∧
    G body c

theorem reference?_eq_some_iff {cs rest : List Char} {c : Char} :
    reference? cs = some (c, rest) ↔ Refers ReadAs cs c rest := by
  have whole := List.takeWhile_append_dropWhile (p := (· != ';')) (l := cs)
  unfold reference?
  dsimp only
  constructor
  · intro h
    split at h
    · cases h
    · rename_i mark tail dropped
      split at h
      · rename_i bytes
        obtain ⟨d, entity, same⟩ := Option.map_eq_some_iff.1 h
        cases same
        have semicolon : mark = ';' := by
          have first := List.head?_dropWhile_not (· != ';') cs
          rw [dropped] at first
          simpa using first
        rw [dropped, semicolon] at whole
        exact ⟨_, whole.symm, bytes.1, bytes.2, entity?_eq_some_iff.1 entity⟩
      · cases h
  · rintro ⟨body, rfl, some_byte, few, read⟩
    have plain : ∀ x ∈ body, (x != ';') = true := fun x mem => by
      rw [bne_iff_ne]
      rintro rfl
      exact read.not_mem mem
    have taken : (body ++ ';' :: rest).takeWhile (· != ';') = body := by
      rw [List.takeWhile_append_of_pos plain]
      simp
    have dropped : (body ++ ';' :: rest).dropWhile (· != ';') = ';' :: rest := by
      rw [List.dropWhile_append_of_pos plain]
      simp
    rw [taken, dropped]
    dsimp only
    rw [if_pos ⟨some_byte, few⟩, entity?_eq_some_iff.2 read]
    rfl

/-- A plus sign before the digits is read over. -/
example : reference? "#+65;".toList = some ('A', []) := by decide

/-! ## Decoding -/

/-- A text with the references of a grammar replaced from left to right, and all else copied. -/
inductive Replaced (G : List Char → Char → Prop) : List Char → List Char → Prop where
  | nil : Replaced G [] []
  | other {c : Char} {cs out : List Char} (plain : c ≠ '&') (tail : Replaced G cs out) :
      Replaced G (c :: cs) (c :: out)
  | reference {cs rest out : List Char} {c : Char} (refers : Refers G cs c rest)
      (tail : Replaced G rest out) : Replaced G ('&' :: cs) (c :: out)
  | ampersand {cs out : List Char} (malformed : ∀ c rest, ¬Refers G cs c rest)
      (tail : Replaced G cs out) : Replaced G ('&' :: cs) ('&' :: out)

theorem decode_ampersand {cs : List Char} (h : reference? cs = none) :
    decode ('&' :: cs) = '&' :: decode cs := by
  rw [decode, if_pos rfl]
  split
  · rename_i found
    rw [h] at found
    cases found
  · rfl

/-- Decoding replaces what is read as references from left to right, and nothing else. -/
theorem replaced_iff_decode (cs out : List Char) : Replaced ReadAs cs out ↔ decode cs = out := by
  constructor
  · intro h
    induction h with
    | nil => exact decode_nil
    | other plain _ ih => rw [decode_of_ne plain, ih]
    | reference refers _ ih => rw [decode_reference (reference?_eq_some_iff.2 refers), ih]
    | @ampersand cs out malformed _ ih =>
        cases found : reference? cs with
        | none => rw [decode_ampersand found, ih]
        | some read => exact (malformed _ _ (reference?_eq_some_iff.1 found)).elim
  · rintro rfl
    induction cs using decode.induct with
    | case1 => rw [decode_nil]; exact .nil
    | case2 cs d rest found _ ih =>
        rw [decode_reference found]
        exact .reference (reference?_eq_some_iff.1 found) ih
    | case3 cs missing ih =>
        rw [decode_ampersand missing]
        refine .ampersand (fun c rest refers => ?_) ih
        rw [reference?_eq_some_iff.2 refers] at missing
        cases missing
    | case4 c cs plain ih =>
        rw [decode_of_ne plain]
        exact .other plain ih

/-- What is replaced depends on the references behind the ampersands of the text only. -/
theorem Replaced.congr {G H : List Char → Char → Prop} {cs out : List Char}
    (same : ∀ tail, ('&' :: tail) <:+ cs → ∀ c rest, Refers G tail c rest ↔ Refers H tail c rest)
    (h : Replaced G cs out) : Replaced H cs out := by
  induction h with
  | nil => exact .nil
  | other plain _ ih => exact .other plain (ih fun tail inside => same tail (inside.trans (List.suffix_cons ..)))
  | @reference cs rest out c refers _ ih =>
      refine .reference ((same cs (List.suffix_refl _) _ _).1 refers) (ih fun tail inside => ?_)
      obtain ⟨body, rfl, -⟩ := refers
      refine same tail (inside.trans ⟨'&' :: body ++ [';'], ?_⟩)
      simp
  | @ampersand cs out malformed _ ih =>
      refine .ampersand (fun c rest refers => ?_)
        (ih fun tail inside => same tail (inside.trans (List.suffix_cons ..)))
      exact malformed c rest ((same cs (List.suffix_refl _) c rest).2 refers)

/-- The digits of some reference of the text may have a plus sign before them. -/
def Signed (cs : List Char) : Prop :=
  ∃ start ∈ ["&#+".toList, "&#x+".toList, "&#X+".toList], start <:+: cs

/-- Without plus signs before digits the references are the well-formed ones. -/
theorem refers_iff_of_not_signed {cs tail : List Char} (unsigned : ¬Signed cs)
    (inside : ('&' :: tail) <:+ cs) (c : Char) (rest : List Char) :
    Refers ReadAs tail c rest ↔ Refers Denotes tail c rest := by
  have out : ∀ start ∈ ["&#+".toList, "&#x+".toList, "&#X+".toList], ¬start <+: '&' :: tail :=
    fun start mem front => unsigned ⟨start, mem, front.isInfix.trans inside.isInfix⟩
  constructor
  · rintro ⟨body, rfl, some_byte, few, denotes | number | ⟨rfl | rfl, number⟩⟩
    · exact ⟨body, rfl, some_byte, few, denotes⟩
    · exact (out "&#+".toList (by simp) ⟨_, rfl⟩).elim
    · exact (out "&#x+".toList (by simp) ⟨_, rfl⟩).elim
    · exact (out "&#X+".toList (by simp) ⟨_, rfl⟩).elim
  · rintro ⟨body, rfl, some_byte, few, denotes⟩
    exact ⟨body, rfl, some_byte, few, .plain denotes⟩

/-- A text without signs before digits is decoded exactly as the grammar says. -/
theorem replaced_iff_decode_of_not_signed {cs : List Char} (unsigned : ¬Signed cs)
    (out : List Char) : Replaced Denotes cs out ↔ decode cs = out := by
  rw [← replaced_iff_decode]
  exact ⟨.congr fun tail inside c rest => (refers_iff_of_not_signed unsigned inside c rest).symm,
    .congr fun tail inside c rest => refers_iff_of_not_signed unsigned inside c rest⟩

theorem decodeText_escapeText (text : String) : decodeText (escapeText text) = text := by
  simp [decodeText, escapeText, decode_escapedText]

theorem decodeText_escapeAttribute (value : String) :
    decodeText (escapeAttribute value) = value := by
  simp [decodeText, escapeAttribute, decode_escapedAttribute]

end Stencil.Markup
