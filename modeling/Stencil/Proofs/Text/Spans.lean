import Stencil.Source

/-! # Spans of texts

A location at the end of a part of a text cuts the text there, and the span between two such
locations covers what stands between them.
-/

namespace Stencil

namespace Text

/-- Behind all bytes of a part, the text is cut behind this part. -/
theorem splitAtByte_byteLength (front back : List Char) :
    splitAtByte (byteLength front) (front ++ back) = (front, back) := by
  induction front with
  | nil =>
      cases back with
      | nil => rfl
      | cons c back =>
          have some_byte := Char.utf8Size_pos c
          rw [List.nil_append, splitAtByte, byteLength_nil, if_neg (by omega)]
  | cons c front ih =>
      rw [List.cons_append, splitAtByte, byteLength_cons, if_pos (Nat.le_add_right _ _),
        Nat.add_sub_cancel_left, ih]

end Text

open Text

/-- The span lies on `thing`, behind `front` in the source. -/
structure Span.Covers (span : Span) (source : Source) (front thing : List Char) : Prop where
  origin : span.source = source
  inside : front ++ thing <+: source.text.toList
  start : span.start = endLocation front
  stop : span.stop = endLocation (front ++ thing)

theorem Source.locate_byteLength {source : Source} {front : List Char}
    (begins : front <+: source.text.toList) : source.locate (byteLength front) = endLocation front := by
  obtain ⟨back, whole⟩ := begins
  rw [Source.locate, ← whole, splitAtByte_byteLength]

/-- Between the bytes at which a thing begins and ends, the span covers the thing. -/
theorem Source.covers_span {source : Source} {front thing : List Char}
    (inside : front ++ thing <+: source.text.toList) :
    (source.span (byteLength front) (byteLength front + byteLength thing)).Covers source front thing where
  origin := rfl
  inside := inside
  start := locate_byteLength ((List.prefix_append front thing).trans inside)
  stop := by rw [← byteLength_append]; exact locate_byteLength inside

/-- The text of a span is what the span covers. -/
theorem Span.Covers.text {span : Span} {source : Source} {front thing : List Char}
    (h : span.Covers source front thing) : span.text = String.ofList thing := by
  obtain ⟨back, whole⟩ := h.inside
  rw [Span.text, h.start, h.stop, h.origin, ← whole]
  simp only [endLocation, splitAtByte_byteLength]

end Stencil
