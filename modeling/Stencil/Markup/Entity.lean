import Stencil.Text.Cut

/-! # Character references

Writing text and attribute values as markup replaces the characters that markup would
take for its own. Reading replaces every well-formed reference by the character that it
denotes and leaves all else alone.
-/

namespace Stencil.Markup

/-- The characters with a name. -/
def namedCharacters : List (String × Char) :=
  [("amp", '&'), ("lt", '<'), ("gt", '>'), ("quot", '"'), ("apos", '\''), ("nbsp", '\u00A0'),
    ("copy", '\u00A9'), ("reg", '\u00AE'), ("hellip", '\u2026'), ("mdash", '\u2014'),
    ("ndash", '\u2013')]

/-- The value of a digit in base ten or sixteen. -/
def digit? (base : Nat) (c : Char) : Option Nat :=
  let value :=
    if c.isDigit then some (c.toNat - '0'.toNat)
    else if 'a' ≤ c ∧ c ≤ 'f' then some (c.toNat - 'a'.toNat + 10)
    else if 'A' ≤ c ∧ c ≤ 'F' then some (c.toNat - 'A'.toNat + 10)
    else none
  value.filter (· < base)

/-- The number that at least one digit writes. A plus sign may stand before the digits. -/
def number? (base : Nat) (cs : List Char) : Option Nat :=
  let digits := match cs with
    | '+' :: digits => digits
    | digits => digits
  if digits.isEmpty then none
  else digits.foldlM (fun n c => (digit? base c).map (base * n + ·)) 0

/-- The character with a code point, if it is one. -/
def scalar? (n : Nat) : Option Char :=
  if n.isValidChar then some (Char.ofNat n) else none

/-- The character that the body of a reference denotes. -/
def entity? : List Char → Option Char
  | '#' :: 'x' :: digits => (number? 16 digits).bind scalar?
  | '#' :: 'X' :: digits => (number? 16 digits).bind scalar?
  | '#' :: digits => (number? 10 digits).bind scalar?
  | name => (namedCharacters.find? fun entry => entry.1.toList == name).map (·.2)

/-- The character of the reference whose ampersand has just been read, and the text after
it. The body has one to ten bytes and ends at the first semicolon. -/
def reference? (cs : List Char) : Option (Char × List Char) :=
  let body := cs.takeWhile (· != ';')
  match cs.dropWhile (· != ';') with
  | [] => none
  | _ :: rest =>
      if 1 ≤ Text.byteLength body ∧ Text.byteLength body ≤ 10 then
        (entity? body).map fun c => (c, rest)
      else none

theorem reference?_length_lt {cs rest : List Char} {c : Char}
    (h : reference? cs = some (c, rest)) : rest.length < cs.length := by
  unfold reference? at h
  dsimp only at h
  split at h
  · simp at h
  · rename_i semicolon tail hdrop
    split at h
    · obtain ⟨d, _, same⟩ := Option.map_eq_some_iff.1 h
      simp only [Prod.mk.injEq] at same
      obtain ⟨_, rfl⟩ := same
      have whole :=
        congrArg List.length (List.takeWhile_append_dropWhile (p := (· != ';')) (l := cs))
      rw [hdrop] at whole
      simp only [List.length_append, List.length_cons] at whole
      omega
    · simp at h

/-- The text with every well-formed reference replaced by its character. -/
def decode : List Char → List Char
  | [] => []
  | c :: cs =>
      if c = '&' then
        match h : reference? cs with
        | some (d, rest) =>
            have := reference?_length_lt h
            d :: decode rest
        | none => '&' :: decode cs
      else c :: decode cs
termination_by cs => cs.length

/-- The text with every well-formed reference replaced by its character. -/
def decodeText (text : String) : String := String.ofList (decode text.toList)

/-- One character of text as markup. -/
def escapedTextChar (c : Char) : List Char :=
  match c with
  | '&' => "&amp;".toList
  | '<' => "&lt;".toList
  | '>' => "&gt;".toList
  | c => [c]

/-- One character of an attribute value between double quotes. -/
def escapedAttributeChar (c : Char) : List Char :=
  match c with
  | '&' => "&amp;".toList
  | '"' => "&quot;".toList
  | c => [c]

/-- Text as markup. -/
def escapeText (text : String) : String :=
  String.ofList (text.toList.flatMap escapedTextChar)

/-- An attribute value as markup, without its quotes. -/
def escapeAttribute (value : String) : String :=
  String.ofList (value.toList.flatMap escapedAttributeChar)

end Stencil.Markup
