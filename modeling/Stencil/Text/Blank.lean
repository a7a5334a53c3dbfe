/-! # White space

The characters with the Unicode property White_Space, trimming them off both ends
of a text, and the words that they separate.
-/

namespace Stencil.Text

/-- The twenty-five characters with the property White_Space. -/
def isWhite (c : Char) : Bool :=
  let n := c.toNat
  (9 ≤ n && n ≤ 13) || n == 0x20 || n == 0x85 || n == 0xA0 || n == 0x1680 ||
    (0x2000 ≤ n && n ≤ 0x200A) || n == 0x2028 || n == 0x2029 || n == 0x202F ||
    n == 0x205F || n == 0x3000

/-- The text without its trailing characters that satisfy `p`. -/
def dropEndWhile (p : Char → Bool) : List Char → List Char
  | [] => []
  | c :: cs =>
      match dropEndWhile p cs with
      | [] => if p c then [] else [c]
      | rest => c :: rest

/-- The text without white space at either end. -/
def trim (cs : List Char) : List Char := dropEndWhile isWhite (cs.dropWhile isWhite)

/-- The word that begins where the text begins, and the words after it. -/
def leadingWord : List Char → List Char × List (List Char)
  | [] => ([], [])
  | c :: cs =>
      let (word, later) := leadingWord cs
      if isWhite c then ([], if word.isEmpty then later else word :: later)
      else (c :: word, later)

/-- The maximal runs of characters that are not white space. -/
def words (cs : List Char) : List (List Char) :=
  let (word, later) := leadingWord cs
  if word.isEmpty then later else word :: later

end Stencil.Text
