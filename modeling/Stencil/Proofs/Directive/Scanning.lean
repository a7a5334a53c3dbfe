import Stencil.Proofs.Compile.Pieces
import Stencil.Proofs.Directive.Matching
import Stencil.Proofs.Text.Spans

/-! # Scanning for directives

The directives of a text are what the pattern matches from left to right. With the pieces
between them they are the text again, each span covers its directive and ends before the next
one begins, and no piece holds a directive. The scan is refused at the first directive that is
closed by another number of braces than it is opened by.
-/

namespace Stencil

open Text

namespace Mustache

variable {text rest : List Char} {m : Mustache}

/-- The content of a directive is some text without closing braces. -/
theorem content_of_at? (h : at? text = some (m, rest)) : m.content ≠ [] ∧ '}' ∉ m.content := by
  unfold at? at h
  split at h
  · rename_i inner
    have out : '}' ∉ inner.takeWhile (· != '}') := fun mem =>
      absurd (List.mem_takeWhile_imp mem) (by decide)
    split at h
    · cases h
    · split at h
      · rename_i deeper begins
        rw [begins, List.mem_cons, not_or] at out
        split at h
        · cases h
          refine ⟨?_, fun mem => ?_⟩
          · rw [content, trim_cons (by decide)]
            exact List.cons_ne_nil _ _
          · rcases List.mem_cons.1 (mem_of_mem_trim mem) with same | mem
            · exact out.1 same
            · exact out.2 mem
        · rename_i filled
          cases h
          exact ⟨fun empty => filled (List.isEmpty_iff.2 empty), fun mem => out.2 (mem_of_mem_trim mem)⟩
      · split at h
        · cases h
        · rename_i filled
          cases h
          exact ⟨fun empty => filled (List.isEmpty_iff.2 empty), fun mem => out (mem_of_mem_trim mem)⟩
  · cases h

end Mustache

namespace Occurrence

/-- Opened and closed by as many braces. -/
def Balanced (o : Occurrence) : Prop := o.opening.length = o.closing.length

/-- The directives of a source in order, balanced or not. -/
def sequence (source : Source) : List Occurrence :=
  placeAll 0 (tiles Mustache.at? source.text.toList).1

/-- Occurrences with the literal text before each, put in order. -/
def joined (found : List Occurrence) : List Char :=
  found.flatMap fun o => o.preamble.toList ++ o.whole.toList

/-- The text behind the last of the occurrences. -/
def behind (source : Source) (found : List Occurrence) : List Char :=
  match found.getLast? with
  | none => source.text.toList
  | some o => (splitAtByte (o.span source).stop.offset source.text.toList).2

/-- The occurrences are all directives of the source, in order. -/
structure Scan (source : Source) (found : List Occurrence) : Prop where
  captured : found.map (fun o => (o.preamble.toList, Captures.ofMustache o.mustache)) =
    (tiles Captures.pattern.first? source.text.toList).1
  pieces : joined found ++ (trailing source.text).toList = source.text.toList
  covers : ∀ before o after, found = before ++ o :: after →
    (o.span source).Covers source (joined before ++ o.preamble.toList) o.whole.toList
  spans : ∀ o ∈ found, (o.span source).start.offset < (o.span source).stop.offset ∧
    (o.span source).text = o.whole
  ordered : found.Pairwise fun o next => (o.span source).stop.offset ≤ (next.span source).start.offset
  rest : (trailing source.text).toList = behind source found
  contents : ∀ o ∈ found, o.content.toList ≠ [] ∧ '}' ∉ o.content.toList ∧
    (∀ c ∈ o.content.toList.head?, isWhite c = false) ∧
    ∀ c ∈ o.content.toList.getLast?, isWhite c = false
  preambles : ∀ o ∈ found, first? ⟨source.name, o.preamble⟩ = .ok none
  last : first? ⟨source.name, trailing source.text⟩ = .ok none

variable {source : Source} {found : List Occurrence}

theorem joined_append (found more : List Occurrence) : joined (found ++ more) = joined found ++ joined more :=
  List.flatMap_append

theorem joined_cons (o : Occurrence) (found : List Occurrence) :
    joined (o :: found) = o.preamble.toList ++ o.whole.toList ++ joined found :=
  List.flatMap_cons

/-! ## Places -/

theorem joined_placeAll (start : Nat) (tiles : List (List Char × Mustache)) :
    joined (placeAll start tiles) = tiles.flatMap fun (before, m) => before ++ m.text := by
  induction tiles generalizing start with
  | nil => rfl
  | cons tile tiles ih =>
      rw [placeAll, joined_cons, ih]
      simp [place, whole]

theorem captures_placeAll (start : Nat) (tiles : List (List Char × Mustache)) :
    (placeAll start tiles).map (fun o => (o.preamble.toList, Captures.ofMustache o.mustache)) =
      tiles.map fun (before, m) => (before, Captures.ofMustache m) := by
  induction tiles generalizing start with
  | nil => rfl
  | cons tile tiles ih =>
      rw [placeAll, List.map_cons, ih]
      simp [place]

/-- Directives that are placed one behind the other lie where they stand in the text. -/
theorem covers_placeAll {tiles : List (List Char × Mustache)} {front : List Char}
    (inside : front ++ (tiles.flatMap fun (before, m) => before ++ m.text) <+: source.text.toList)
    {before after : List Occurrence} {o : Occurrence}
    (split_ : placeAll (byteLength front) tiles = before ++ o :: after) :
    (o.span source).Covers source (front ++ joined before ++ o.preamble.toList) o.whole.toList := by
  induction tiles generalizing front before with
  | nil => simp [placeAll] at split_
  | cons tile tiles ih =>
      obtain ⟨piece, m⟩ := tile
      have inside : front ++ piece ++ m.text ++ (tiles.flatMap fun (before, m) => before ++ m.text) <+:
          source.text.toList := by simpa using inside
      have next : byteLength front + byteLength piece + byteLength m.text =
          byteLength (front ++ piece ++ m.text) := by simp [Nat.add_assoc]
      cases before with
      | nil =>
          cases split_
          have here := Source.covers_span ((List.prefix_append _ _).trans inside)
          rw [byteLength_append] at here
          simpa [span, place, whole, joined] using here
      | cons b before =>
          rw [placeAll, List.cons_append, List.cons.injEq] at split_
          obtain ⟨rfl, later⟩ := split_
          have stop : (place (byteLength front) piece m).stop = byteLength (front ++ piece ++ m.text) := next
          rw [stop] at later
          have there := ih inside later
          simpa [joined_cons, place, whole] using there

section Covered

variable (covers : ∀ before o after, found = before ++ o :: after →
    (o.span source).Covers source (joined before ++ o.preamble.toList) o.whole.toList)
include covers

theorem ordered_of_covers :
    found.Pairwise fun o next => (o.span source).stop.offset ≤ (next.span source).start.offset := by
  rw [List.pairwise_iff_forall_sublist]
  intro o next pair
  obtain ⟨front, back, same, mem, later⟩ := List.cons_sublist_iff.1 pair
  obtain ⟨before, between, rfl⟩ := List.append_of_mem mem
  obtain ⟨more, after, rfl⟩ := List.append_of_mem (List.singleton_sublist.1 later)
  have first := covers before o (between ++ more ++ next :: after) (by simp [same])
  have second := covers (before ++ o :: (between ++ more)) next after (by simp [same])
  rw [first.stop, second.start, joined_append, joined_cons]
  simp only [endLocation, byteLength_append]
  omega

theorem behind_of_covers {rest : List Char} (pieces : joined found ++ rest = source.text.toList) :
    rest = behind source found := by
  rw [behind]
  split
  · rename_i none_found
    rw [List.getLast?_eq_none_iff.1 none_found] at pieces
    exact pieces
  · rename_i o last
    obtain ⟨before, rfl⟩ := List.getLast?_eq_some_iff.1 last
    have there := covers before o [] rfl
    have whole : joined (before ++ [o]) = joined before ++ o.preamble.toList ++ o.whole.toList := by
      simp [joined]
    rw [there.stop, ← pieces, whole, endLocation, splitAtByte_byteLength]

end Covered

/-- The directives of a text in order are a scan of the text, whatever their braces. -/
theorem scan_sequence (source : Source) : Scan source (sequence source) := by
  have pieces : joined (sequence source) ++ (trailing source.text).toList = source.text.toList := by
    rw [sequence, joined_placeAll, trailing, String.toList_ofList]
    exact tiles_append Mustache.reads_at? source.text.toList
  have covers (before : List Occurrence) (o : Occurrence) (after : List Occurrence)
      (split_ : sequence source = before ++ o :: after) :
      (o.span source).Covers source (joined before ++ o.preamble.toList) o.whole.toList := by
    have inside : [] ++ ((tiles Mustache.at? source.text.toList).1.flatMap fun (before, m) => before ++ m.text) <+:
        source.text.toList :=
      ⟨_, tiles_append Mustache.reads_at? source.text.toList⟩
    exact covers_placeAll inside split_
  have read : ∀ o ∈ sequence source, ∃ inside rest, Mustache.at? inside = some (o.mustache, rest) := by
    intro o mem
    obtain ⟨tile, listed, -, same⟩ := mem_placeAll mem
    rw [same]
    exact read_of_mem_tiles listed
  have captured : (sequence source).map (fun o => (o.preamble.toList, Captures.ofMustache o.mustache)) =
      (tiles Captures.pattern.first? source.text.toList).1 := by
    rw [tiles_map Captures.pattern_first?, sequence, captures_placeAll]
  have spans : ∀ o ∈ sequence source, (o.span source).start.offset < (o.span source).stop.offset ∧
      (o.span source).text = o.whole := by
    intro o mem
    obtain ⟨before, after, split_⟩ := List.append_of_mem mem
    have there := covers before o after split_
    obtain ⟨inside, rest, reads⟩ := read o mem
    have some_byte : 0 < byteLength o.whole.toList := by
      refine Nat.pos_of_ne_zero fun nothing => Mustache.text_ne_nil_of_at? reads ?_
      simpa [whole] using eq_nil_of_byteLength nothing
    refine ⟨?_, by rw [there.text, String.ofList_toList]⟩
    rw [there.start, there.stop, endLocation, endLocation, byteLength_append _ o.whole.toList]
    exact Nat.lt_add_of_pos_right some_byte
  have contents : ∀ o ∈ sequence source, o.content.toList ≠ [] ∧ '}' ∉ o.content.toList ∧
      (∀ c ∈ o.content.toList.head?, isWhite c = false) ∧
      ∀ c ∈ o.content.toList.getLast?, isWhite c = false := by
    intro o mem
    obtain ⟨inside, rest, reads⟩ := read o mem
    obtain ⟨filled, out⟩ := Mustache.content_of_at? reads
    rw [content, String.toList_ofList]
    exact ⟨filled, out, head?_trim _, getLast?_trim _⟩
  have preambles : ∀ o ∈ sequence source, first? ⟨source.name, o.preamble⟩ = .ok none := by
    intro o mem
    obtain ⟨tile, listed, same, -⟩ := mem_placeAll mem
    have nothing := (find?_pieces Mustache.reads_at? Mustache.grows_at? _).1 tile listed
    exact first?_of_plain (by rw [Plain, same, String.toList_ofList, nothing])
  exact {
    captured, pieces, covers, spans, contents, preambles
    ordered := ordered_of_covers covers
    rest := behind_of_covers covers pieces
    last := first?_of_plain (plain_trailing source.text) }

/-! ## Braces -/

theorem isBalanced_iff {o : Occurrence} : o.mustache.isBalanced = true ↔ o.Balanced := by
  simp [Mustache.isBalanced, Balanced, opening, closing]

/-- The first occurrence that is not balanced is refused. -/
theorem mapM_check (os : List Occurrence) :
    match os.mapM (check source) with
    | .ok found => found = os ∧ ∀ o ∈ found, o.Balanced
    | .error e => ∃ before o after, os = before ++ o :: after ∧
        (∀ b ∈ before, b.Balanced) ∧ ¬o.Balanced ∧ e.span = o.span source := by
  induction os with
  | nil => exact ⟨rfl, List.forall_mem_nil _⟩
  | cons o os ih =>
      rw [List.mapM_cons]
      by_cases balanced : o.Balanced
      · have kept : check source o = .ok o := by rw [check, if_pos (isBalanced_iff.2 balanced)]
        rw [kept]
        revert ih
        cases os.mapM (check source) with
        | ok found =>
            rintro ⟨rfl, others⟩
            exact ⟨rfl, List.forall_mem_cons.2 ⟨balanced, others⟩⟩
        | error e =>
            rintro ⟨before, bad, after, rfl, good, others⟩
            exact ⟨o :: before, bad, after, rfl, List.forall_mem_cons.2 ⟨balanced, good⟩, others⟩
      · have refused : check source o =
            .error { span := o.span source, fault := .braceMismatch o.content o.whole } := by
          rw [check, if_neg fun same => balanced (isBalanced_iff.1 same)]
        rw [refused]
        exact ⟨[], o, os, rfl, List.forall_mem_nil _, balanced, rfl⟩

/-- The scan of a text gives its directives in order if all of them are balanced, and else is
refused at the first one that is not. -/
theorem all_scan (source : Source) :
    Scan source (sequence source) ∧
      match all source with
      | .ok found => found = sequence source ∧ ∀ o ∈ found, o.Balanced
      | .error e => ∃ before o after, sequence source = before ++ o :: after ∧
          (∀ b ∈ before, b.Balanced) ∧ ¬o.Balanced ∧ e.span = o.span source :=
  ⟨scan_sequence source, mapM_check (sequence source)⟩

end Occurrence

end Stencil
