import Stencil.Text.Cut

/-! # Source texts, locations and spans

A location is a byte offset on a character boundary together with its line and
column, both counted from zero. A span lies between two locations of one source,
and an excerpt shows the text on both sides of a location.
-/

namespace Stencil

/-- A text under the name by which messages refer to it. -/
structure Source where
  name : String
  text : String
  deriving DecidableEq, Repr, Inhabited

/-- A place in a text: bytes before it, lines before it, characters before it on its line. -/
structure Location where
  offset : Nat
  line : Nat
  column : Nat
  deriving DecidableEq, Repr, Inhabited

/-- The part of a source between two locations, with an optional remark. -/
structure Span where
  source : Source
  start : Location
  stop : Location
  details : Option String
  deriving DecidableEq, Repr, Inhabited

namespace Text

/-- The characters before the greatest boundary not above `offset`, and the others. -/
def splitAtByte (offset : Nat) : List Char → List Char × List Char
  | [] => ([], [])
  | c :: cs =>
      if c.utf8Size ≤ offset then
        let (before, after) := splitAtByte (offset - c.utf8Size) cs
        (c :: before, after)
      else ([], c :: cs)

theorem splitAtByte_append (offset : Nat) (cs : List Char) :
    (splitAtByte offset cs).1 ++ (splitAtByte offset cs).2 = cs := by
  induction cs generalizing offset with
  | nil => rfl
  | cons c cs ih =>
      simp only [splitAtByte]
      split
      · simp [ih]
      · rfl

theorem byteLength_splitAtByte_le (offset : Nat) (cs : List Char) :
    byteLength (splitAtByte offset cs).1 ≤ offset := by
  induction cs generalizing offset with
  | nil => simp [splitAtByte]
  | cons c cs ih =>
      simp only [splitAtByte]
      split
      · have := ih (offset - c.utf8Size)
        simp only [byteLength_cons]
        omega
      · simp

/-- The location at the end of a text. -/
def endLocation (cs : List Char) : Location :=
  { offset := byteLength cs
    line := cs.count '\n'
    column := (cs.reverse.takeWhile (· != '\n')).length }

/-- The first characters, at most `chars` of them and up to the newline that completes
`lines` lines. -/
def firstLines : (chars lines : Nat) → List Char → List Char
  | 0, _, _ => []
  | _ + 1, _, [] => []
  | chars + 1, lines, c :: cs =>
      if c = '\n' then
        if lines ≤ 1 then [c] else c :: firstLines chars (lines - 1) cs
      else c :: firstLines chars lines cs

end Text

namespace Source

/-- The location at the greatest character boundary not above `offset`. -/
def locate (source : Source) (offset : Nat) : Location :=
  Text.endLocation (Text.splitAtByte offset source.text.toList).1

/-- The span between two byte offsets. -/
def span (source : Source) (start stop : Nat) : Span :=
  { source, start := source.locate start, stop := source.locate stop, details := none }

/-- The text on both sides of a location, at most `chars` characters and `lines` lines on
each. An empty source has no excerpt. -/
def excerpt? (source : Source) (place : Location) (chars lines : Nat) : Option (String × String) :=
  if source.text.isEmpty then none
  else
    let (before, after) := Text.splitAtByte place.offset source.text.toList
    some (String.ofList (Text.firstLines chars lines before.reverse).reverse,
      String.ofList (Text.firstLines chars lines after))

/-- How messages write a location of this source. -/
def describe (source : Source) (place : Location) : String :=
  s!"{source.name}@{place.line}:{place.column}"

end Source

namespace Span

/-- The source text that the span covers. -/
def text (span : Span) : String :=
  let before := (Text.splitAtByte span.stop.offset span.source.text.toList).1
  String.ofList (Text.splitAtByte span.start.offset before).2

def withDetails (span : Span) (details : String) : Span := { span with details := some details }

end Span

end Stencil
