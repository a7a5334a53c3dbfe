import Stencil.Proofs.Text.Spans
import Stencil.Proofs.Text.Tiles

/-! # Locations

Offsets count bytes, columns count characters, and an offset may fall into a character. The
location of an offset is at the last boundary that is not behind it, lines and columns order the
boundaries as offsets do, and what is shown around a location reaches as far as it may.
-/

namespace Stencil

/-! ## Boundaries -/

/-- No character of the source is cut at this offset. -/
def Source.Boundary (source : Source) (offset : Nat) : Prop :=
  String.Pos.Raw.IsValid source.text ⟨offset⟩

namespace Text

theorem byteLength_le_of_prefix {front text : List Char} (begins : front <+: text) :
    byteLength front ≤ byteLength text := by
  obtain ⟨back, rfl⟩ := begins
  rw [byteLength_append]
  exact Nat.le_add_right _ _

theorem splitAtByte_prefix (offset : Nat) (text : List Char) : (splitAtByte offset text).1 <+: text :=
  ⟨_, splitAtByte_append offset text⟩

/-- A beginning that ends at the offset or before it is cut off as a whole. -/
theorem prefix_splitAtByte {front text : List Char} {offset : Nat} (begins : front <+: text)
    (fits : byteLength front ≤ offset) : front <+: (splitAtByte offset text).1 := by
  induction text generalizing front offset with
  | nil => rwa [splitAtByte]
  | cons c text ih =>
      cases front with
      | nil => exact List.nil_prefix
      | cons d front =>
          obtain ⟨rfl, inner⟩ := List.cons_prefix_cons.1 begins
          rw [byteLength_cons] at fits
          rw [splitAtByte, if_pos (by omega)]
          exact List.cons_prefix_cons.2 ⟨rfl, ih inner (by omega)⟩

end Text

open Text

namespace Source

variable {source : Source} {a b offset : Nat}

/-- The text before a location. -/
def before (source : Source) (offset : Nat) : List Char := (splitAtByte offset source.text.toList).1

theorem before_prefix (source : Source) (offset : Nat) :
    source.before offset <+: source.text.toList :=
  splitAtByte_prefix ..

theorem locate_eq (source : Source) (offset : Nat) :
    source.locate offset = endLocation (source.before offset) := rfl

/-- The boundaries are where the beginnings of the text end. -/
theorem boundary_iff :
    source.Boundary offset ↔ ∃ front, front <+: source.text.toList ∧ byteLength front = offset := by
  unfold Boundary
  rw [String.Pos.Raw.isValid_iff_exists_append]
  constructor
  · rintro ⟨front, back, whole, ends⟩
    refine ⟨front.toList, ⟨back.toList, by rw [whole, String.toList_append]⟩, ?_⟩
    rw [← utf8ByteSize_ofList, String.ofList_toList]
    exact (congrArg String.Pos.Raw.byteIdx ends).symm
  · rintro ⟨front, ⟨back, whole⟩, rfl⟩
    refine ⟨String.ofList front, String.ofList back, ?_, ?_⟩
    · rw [← String.ofList_append, whole, String.ofList_toList]
    · rw [← utf8ByteSize_ofList]
      rfl

theorem boundary_locate (source : Source) (offset : Nat) :
    source.Boundary (source.locate offset).offset :=
  boundary_iff.2 ⟨_, source.before_prefix offset, rfl⟩

theorem offset_locate_le (source : Source) (offset : Nat) :
    (source.locate offset).offset ≤ offset :=
  byteLength_splitAtByte_le ..

theorem Boundary.le_offset_locate (boundary : source.Boundary b) (fits : b ≤ offset) :
    b ≤ (source.locate offset).offset := by
  obtain ⟨front, begins, rfl⟩ := boundary_iff.1 boundary
  exact byteLength_le_of_prefix (prefix_splitAtByte begins fits)

theorem Boundary.le_size (boundary : source.Boundary b) : b ≤ source.text.utf8ByteSize := by
  obtain ⟨front, begins, rfl⟩ := boundary_iff.1 boundary
  rw [← String.ofList_toList (s := source.text), utf8ByteSize_ofList]
  exact byteLength_le_of_prefix begins

/-- A boundary is where its own location is. -/
theorem Boundary.offset_locate (boundary : source.Boundary b) : (source.locate b).offset = b :=
  Nat.le_antisymm (source.offset_locate_le b) (boundary.le_offset_locate (Nat.le_refl b))

/-- The texts before two offsets begin alike. -/
theorem before_prefix_before (le : a ≤ b) : source.before a <+: source.before b :=
  prefix_splitAtByte (source.before_prefix a) (Nat.le_trans (source.offset_locate_le a) le)

end Source

/-! ## Lines and columns -/

/-- On an earlier line, or further to the left on the same line. -/
def Location.Before (a b : Location) : Prop :=
  a.line < b.line ∨ a.line = b.line ∧ a.column < b.column

namespace Text

theorem endLocation_append_of_not_mem (front : List Char) {more : List Char} (out : '\n' ∉ more) :
    (endLocation (front ++ more)).line = (endLocation front).line ∧
      (endLocation (front ++ more)).column = (endLocation front).column + more.length := by
  have inLine : ∀ c ∈ more.reverse, (c != '\n') = true := fun c mem =>
    bne_iff_ne.2 fun same => out (same ▸ List.mem_reverse.1 mem)
  constructor
  · simp [endLocation, List.count_eq_zero.2 out]
  · simp only [endLocation, List.reverse_append, List.takeWhile_append_of_pos inLine,
      List.length_append, List.length_reverse]
    exact Nat.add_comm ..

/-- More text moves the location to a later line or, without a newline, to the right. -/
theorem endLocation_before (front : List Char) {more : List Char} (some_more : more ≠ []) :
    (endLocation front).Before (endLocation (front ++ more)) := by
  by_cases newline : '\n' ∈ more
  · left
    have added := List.count_pos_iff.2 newline
    simp only [endLocation, List.count_append]
    omega
  · right
    obtain ⟨line, column⟩ := endLocation_append_of_not_mem front newline
    have added := List.length_pos_iff.2 some_more
    omega

end Text

theorem Location.Before.column_ne {a b : Location} (h : a.Before b) (line : a.line = b.line) :
    a.column ≠ b.column := by
  unfold Before at h
  omega

theorem Source.locate_before {source : Source} {a b : Nat} (boundary : source.Boundary a)
    (boundary' : source.Boundary b) (lt : a < b) : (source.locate a).Before (source.locate b) := by
  obtain ⟨more, whole⟩ := source.before_prefix_before (Nat.le_of_lt lt)
  rw [locate_eq, locate_eq, ← whole]
  refine endLocation_before _ fun none_more => ?_
  have same : (source.locate a).offset = (source.locate b).offset := by
    rw [locate_eq, locate_eq, ← whole, none_more, List.append_nil]
  rw [boundary.offset_locate, boundary'.offset_locate] at same
  exact Nat.ne_of_lt lt same

/-- Boundaries on the same line and in the same column are the same. -/
theorem Source.Boundary.unique {source : Source} {a b : Nat} (boundary : source.Boundary a)
    (boundary' : source.Boundary b) (line : (source.locate a).line = (source.locate b).line)
    (column : (source.locate a).column = (source.locate b).column) : a = b := by
  rcases Nat.lt_trichotomy a b with lt | same | gt
  · exact absurd column ((locate_before boundary boundary' lt).column_ne line)
  · exact same
  · exact absurd column.symm ((locate_before boundary' boundary gt).column_ne line.symm)

/-! ## Spans -/

/-- The span between two offsets in order covers what is between their locations. -/
theorem Source.covers_between {source : Source} {a b : Nat} (le : a ≤ b) :
    ∃ thing, source.before b = source.before a ++ thing ∧
      (source.span a b).Covers source (source.before a) thing := by
  obtain ⟨thing, whole⟩ := source.before_prefix_before le
  exact ⟨thing, whole.symm, rfl, whole ▸ source.before_prefix b, rfl, by rw [whole]; rfl⟩

/-- The text of a span between two offsets in order, with the text before it and behind it. -/
theorem Source.text_span {source : Source} {a b : Nat} (le : a ≤ b) :
    ∃ front back, source.text = front ++ (source.span a b).text ++ back ∧
      front.utf8ByteSize = (source.locate a).offset ∧
      (front ++ (source.span a b).text).utf8ByteSize = (source.locate b).offset := by
  obtain ⟨thing, whole, covers⟩ := source.covers_between le
  obtain ⟨back, rest⟩ := covers.inside
  refine ⟨String.ofList (source.before a), String.ofList back, ?_, utf8ByteSize_ofList _, ?_⟩
  · rw [covers.text, ← String.ofList_append, ← String.ofList_append, rest, String.ofList_toList]
  · rw [covers.text, ← String.ofList_append, utf8ByteSize_ofList, ← whole]
    rfl

/-! ## Excerpts -/

namespace Text

/-- The part with which a text begins, as far as a number of characters and of lines reach. It ends
with the newline that completes the last line, if it comes so far; where no line is asked for, that
is the first newline. -/
structure Excerpt (chars lines : Nat) (text part : List Char) : Prop where
  begins : part <+: text
  chars_le : part.length ≤ chars
  lines_le : part.count '\n' ≤ max 1 lines
  ends : part.dropLast.count '\n' < max 1 lines
  longest : ∀ longer, longer <+: text → longer.length ≤ chars →
    longer.dropLast.count '\n' < max 1 lines → longer <+: part

theorem one_line_le (lines : Nat) : 1 ≤ max 1 lines := Nat.le_max_left 1 lines

theorem Excerpt.nil (chars lines : Nat) : Excerpt chars lines [] [] where
  begins := List.prefix_rfl
  chars_le := Nat.zero_le _
  lines_le := Nat.zero_le _
  ends := one_line_le lines
  longest _ begins _ _ := begins

theorem Excerpt.none (lines : Nat) (text : List Char) : Excerpt 0 lines text [] where
  begins := List.nil_prefix
  chars_le := Nat.le_refl _
  lines_le := Nat.zero_le _
  ends := one_line_le lines
  longest longer _ fits _ := by
    have empty : longer = [] := List.eq_nil_of_length_eq_zero (Nat.le_zero.1 fits)
    exact empty ▸ List.nil_prefix

/-- Nothing is taken behind the newline that completes the last line. -/
theorem Excerpt.newline {lines : Nat} (chars : Nat) (text : List Char) (last : lines ≤ 1) :
    Excerpt (chars + 1) lines ('\n' :: text) ['\n'] where
  begins := ⟨text, rfl⟩
  chars_le := by simp
  lines_le := one_line_le lines
  ends := one_line_le lines
  longest longer begins _ open_ := by
    cases longer with
    | nil => exact List.nil_prefix
    | cons c longer =>
        obtain ⟨rfl, -⟩ := List.cons_prefix_cons.1 begins
        cases longer with
        | nil => exact List.prefix_rfl
        | cons d longer =>
            -- the newline is not the last character of a longer part, and completes the line
            rw [List.dropLast_cons_cons, List.count_cons_self] at open_
            omega

/-- One more character, which completes a line if it is a newline. -/
theorem Excerpt.cons {c : Char} {chars lines fewer : Nat} {text part : List Char}
    (h : Excerpt chars fewer text part)
    (count : max 1 lines = max 1 fewer + if c = '\n' then 1 else 0) :
    Excerpt (chars + 1) lines (c :: text) (c :: part) where
  begins := List.cons_prefix_cons.2 ⟨rfl, h.begins⟩
  chars_le := Nat.succ_le_succ h.chars_le
  lines_le := by
    have := h.lines_le
    rw [List.count_cons, count]
    simp only [beq_iff_eq]
    omega
  ends := by
    have ends := h.ends
    cases part with
    | nil => exact one_line_le lines
    | cons d part =>
        rw [List.dropLast_cons_cons, List.count_cons, count]
        simp only [beq_iff_eq]
        omega
  longest longer begins fits open_ := by
    cases longer with
    | nil => exact List.nil_prefix
    | cons d longer =>
        obtain ⟨rfl, inner⟩ := List.cons_prefix_cons.1 begins
        refine List.cons_prefix_cons.2 ⟨rfl, h.longest longer inner (Nat.le_of_succ_le_succ fits) ?_⟩
        cases longer with
        | nil =>
            simp only [List.dropLast_nil, List.count_nil]
            omega
        | cons e longer =>
            rw [List.dropLast_cons_cons, List.count_cons, count] at open_
            simp only [beq_iff_eq] at open_
            omega

theorem excerpt_firstLines (chars lines : Nat) (text : List Char) :
    Excerpt chars lines text (firstLines chars lines text) := by
  fun_induction firstLines chars lines text with
  | case1 lines text => exact .none lines text
  | case2 lines chars => exact .nil _ lines
  | case3 chars lines text last => exact .newline chars text last
  | case4 chars lines text several ih => exact ih.cons (by simp; omega)
  | case5 chars lines c text other ih => exact ih.cons (by simp [other])

end Text

theorem Source.excerpt?_eq_some {source : Source} (filled : source.text ≠ "") (place : Location)
    (chars lines : Nat) :
    source.excerpt? place chars lines =
      some (String.ofList (firstLines chars lines (source.before place.offset).reverse).reverse,
        String.ofList (firstLines chars lines (splitAtByte place.offset source.text.toList).2)) := by
  rw [excerpt?, if_neg (by simpa using filled)]
  rfl

/-- What is shown around a location is the text on both sides of it, as far as the limits reach. -/
theorem Source.excerpt?_around {source : Source} (filled : source.text ≠ "") (place : Location)
    (chars lines : Nat) : ∃ front left right back,
      source.excerpt? place chars lines = some (left, right) ∧
      source.text = front ++ left ++ right ++ back ∧
      (front ++ left).utf8ByteSize = (source.locate place.offset).offset ∧
      Excerpt chars lines (front ++ left).toList.reverse left.toList.reverse ∧
      Excerpt chars lines (right ++ back).toList right.toList := by
  have shownLeft := excerpt_firstLines chars lines (source.before place.offset).reverse
  have shownRight :=
    excerpt_firstLines chars lines (splitAtByte place.offset source.text.toList).2
  obtain ⟨front, begins⟩ := shownLeft.begins
  obtain ⟨back, ends⟩ := shownRight.begins
  have left : front.reverse ++
      (firstLines chars lines (source.before place.offset).reverse).reverse =
        source.before place.offset := by
    rw [← List.reverse_append, begins, List.reverse_reverse]
  refine ⟨String.ofList front.reverse, _, _, String.ofList back,
    excerpt?_eq_some filled place chars lines, ?_, ?_, ?_, ?_⟩
  · rw [← String.ofList_append, left, ← String.ofList_append, ← String.ofList_append,
      List.append_assoc, ends, before, splitAtByte_append, String.ofList_toList]
  · rw [← String.ofList_append, left, utf8ByteSize_ofList]
    rfl
  · rw [← String.ofList_append, left, String.toList_ofList, String.toList_ofList,
      List.reverse_reverse]
    exact shownLeft
  · rw [← String.ofList_append, ends, String.toList_ofList, String.toList_ofList]
    exact shownRight

/-! ## What locations say -/

/-- Locations are at the boundaries of characters and in their order. The location of an offset is
at the greatest boundary that is not behind it, and of two boundaries the one with the smaller
offset is on an earlier line or further to the left. The text of a span is what stands between its
locations, and an excerpt what stands on both sides of one, as far as the limits reach. -/
theorem Source.locations (source : Source) :
    (∀ offset, source.Boundary (source.locate offset).offset ∧
      (source.locate offset).offset ≤ offset ∧
      (source.locate offset).offset ≤ source.text.utf8ByteSize ∧
      ∀ b, source.Boundary b → b ≤ offset → b ≤ (source.locate offset).offset) ∧
    (∀ a b, source.Boundary a → source.Boundary b → a < b →
      (source.locate a).Before (source.locate b)) ∧
    (∀ a b, source.Boundary a → source.Boundary b → (source.locate a).line = (source.locate b).line →
      (source.locate a).column = (source.locate b).column → a = b) ∧
    (∀ a b, a ≤ b → ∃ front back, source.text = front ++ (source.span a b).text ++ back ∧
      front.utf8ByteSize = (source.locate a).offset ∧
      (front ++ (source.span a b).text).utf8ByteSize = (source.locate b).offset) ∧
    (source.text ≠ "" → ∀ place chars lines, ∃ front left right back,
      source.excerpt? place chars lines = some (left, right) ∧
      source.text = front ++ left ++ right ++ back ∧
      (front ++ left).utf8ByteSize = (source.locate place.offset).offset ∧
      Excerpt chars lines (front ++ left).toList.reverse left.toList.reverse ∧
      Excerpt chars lines (right ++ back).toList right.toList) := by
  refine ⟨fun offset => ⟨source.boundary_locate offset, source.offset_locate_le offset,
    (source.boundary_locate offset).le_size, fun b boundary fits => boundary.le_offset_locate fits⟩,
    fun a b boundary boundary' lt => locate_before boundary boundary' lt,
    fun a b boundary boundary' => boundary.unique boundary', fun a b le => text_span le,
    fun filled place chars lines => excerpt?_around filled place chars lines⟩

/-- An offset in a character, on the second line of the text. -/
example : (Source.mk "page" "a\nhéllo").locate 4 = { offset := 3, line := 1, column := 1 } := by
  decide

end Stencil
