import Stencil.Proofs.Script.Literal
import Stencil.Proofs.Text.Tiles

/-! # Compaction

Static markup is cut at the host marker exactly if that takes fewer bytes, which is so exactly if
there is a marker in it: every marker takes eight bytes more in the text than between two pieces,
and the brackets of the array take two. Nothing is lost either way.
-/

namespace Stencil

namespace Text

/-! ## Counting -/

/-- The number of places at which `part` begins in a text. -/
def occurrences (part : List Char) : List Char → Nat
  | [] => 0
  | c :: cs => (if part <+: c :: cs then 1 else 0) + occurrences part cs

variable {first : Char} {more : List Char}

/-- No occurrence begins where its first character does not stand. -/
theorem occurrences_append (front rest : List Char) (out : first ∉ front) :
    occurrences (first :: more) (front ++ rest) = occurrences (first :: more) rest := by
  induction front with
  | nil => rfl
  | cons c front ih =>
      rw [List.mem_cons, not_or] at out
      have elsewhere : ¬first :: more <+: c :: (front ++ rest) := fun here =>
        out.1 (List.cons_prefix_cons.1 here).1
      rw [List.cons_append, occurrences, if_neg elsewhere, Nat.zero_add, ih out.2]

/-- A text is cut into one piece more than there are occurrences, if these cannot overlap. -/
theorem length_splitOn (apart : first ∉ more) : (text : List Char) →
    (splitOn (first :: more) text).length = occurrences (first :: more) text + 1
  | [] => by simp [splitOn, breakOn?, occurrences]
  | c :: cs => by
      by_cases here : first :: more <+: c :: cs
      · obtain ⟨rest, same⟩ := here
        have shorter : rest.length < (c :: cs).length := by
          rw [← same, List.length_append, List.length_cons]
          omega
        rw [← same, splitOn_found (by simp), List.cons_append, occurrences, if_pos ⟨rest, rfl⟩,
          occurrences_append more rest apart, List.length_cons, length_splitOn apart rest]
        omega
      · obtain ⟨piece, pieces, before, after⟩ := splitOn_cons here
        have shorter := length_splitOn apart cs
        rw [before] at shorter
        rw [after, occurrences, if_neg here, Nat.zero_add, ← shorter]
        rfl
termination_by text => text.length
decreasing_by
  · exact shorter
  · exact Nat.lt_succ_self _

/-- No piece holds the separator. -/
theorem not_infix_of_mem_splitOn {sep text piece : List Char} (some_sep : sep ≠ [])
    (mem : piece ∈ splitOn sep text) : ¬sep <:+: piece := by
  fun_induction splitOn sep text with
  | case1 text nowhere =>
      rw [List.mem_singleton.1 mem]
      exact not_infix_of_breakOn? nowhere
  | case2 text before after found shorter ih =>
      rcases List.mem_cons.1 mem with rfl | later
      · exact not_infix_before some_sep found
      · exact ih later
  | case3 text before after found long =>
      have whole := congrArg List.length (breakOn?_eq_some found)
      have := List.length_pos_iff.2 some_sep
      simp only [List.length_append] at whole
      omega

end Text

open Text

namespace Json

theorem escaped_append (front back : List Char) :
    escaped (front ++ back) = escaped front ++ escaped back :=
  List.flatMap_append

/-- A separator that needs no escapes stays where it is. -/
theorem escaped_joinWith {sep : List Char} (plain : escaped sep = sep) :
    (pieces : List (List Char)) → escaped (joinWith sep pieces) = joinWith sep (pieces.map escaped)
  | [] => rfl
  | [_] => rfl
  | piece :: next :: more => by
      have further := escaped_joinWith plain (next :: more)
      simp only [joinWith, List.map_cons, escaped_append, plain] at further ⊢
      rw [further]

end Json

namespace Skeleton

/-- The bytes that static markup takes in an artifact. -/
def bytes (s : Skeleton) : Nat := s.toJson.print.utf8ByteSize

/-- The number of host markers in markup. -/
def markers (markup : String) : Nat := occurrences Marker.host.toList markup.toList

/-- The pieces of markup as they stand in an artifact. -/
def written (markup : String) : List (List Char) :=
  (splitOn Marker.host.toList markup.toList).map Json.escaped

theorem length_pieces (markup : String) : (pieces markup).length = markers markup + 1 := by
  rw [pieces, List.length_map, markers]
  exact length_splitOn (by decide) markup.toList

theorem length_written (markup : String) : (written markup).length = markers markup + 1 := by
  rw [← length_pieces, written, pieces, List.length_map, List.length_map]

theorem bytes_eq (s : Skeleton) : s.bytes = byteLength s.toJson.print.toList := by
  rw [bytes, ← utf8ByteSize_ofList, String.ofList_toList]

theorem bytes_plain (markup : String) :
    (plain markup).bytes = byteLength (joinWith Marker.host.toList (written markup)) + 2 := by
  have whole : Json.escaped markup.toList = joinWith Marker.host.toList (written markup) := by
    rw [written, ← Json.escaped_joinWith (by decide), joinWith_splitOn]
  have quotation : '"'.utf8Size = 1 := rfl
  rw [bytes_eq, toJson, Json.print, Json.quote_toList, whole]
  simp only [byteLength_cons, byteLength_append, byteLength_nil, List.cons_append, quotation]
  omega

/-- The items of an array of texts are the texts between quotes. -/
theorem printItems_texts (parts : List (List Char)) :
    (Json.printItems ((parts.map String.ofList).map Json.string)).map String.toList =
      (parts.map Json.escaped).map fun piece => '"' :: piece ++ ['"'] := by
  induction parts with
  | nil => rfl
  | cons part parts ih =>
      rw [List.map_cons, List.map_cons, Json.printItems, List.map_cons, ih, Json.print,
        Json.quote_toList, String.toList_ofList]
      rfl

theorem bytes_split (markup : String) :
    (split (pieces markup)).bytes = byteLength (joinWith (Script.seam '"') (written markup)) + 4 := by
  have some_piece : written markup ≠ [] := by
    simpa [written] using splitOn_ne_nil Marker.host.toList markup.toList
  have text : (split (pieces markup)).toJson.print.toList =
      ['['] ++ ('"' :: joinWith (Script.seam '"') (written markup) ++ ['"']) ++ [']'] := by
    rw [toJson, Json.print, String.toList_append, String.toList_append, String.toList_intercalate,
      pieces, printItems_texts, Script.joinWith_seam _ _ some_piece]
    rfl
  have sizes : '"'.utf8Size = 1 ∧ '['.utf8Size = 1 ∧ ']'.utf8Size = 1 := ⟨rfl, rfl, rfl⟩
  rw [bytes_eq, text]
  simp only [byteLength_cons, byteLength_append, byteLength_nil, sizes]
  omega

/-- In pieces, markup takes eight bytes less for every marker, and two bytes more. -/
theorem bytes_split_add (markup : String) :
    (split (pieces markup)).bytes + 8 * markers markup = (plain markup).bytes + 2 := by
  have seam : byteLength (Script.seam '"') + 8 = byteLength Marker.host.toList := by decide
  have saved := byteLength_joinWith seam (written markup)
  rw [length_written, Nat.add_sub_cancel] at saved
  rw [bytes_plain, bytes_split]
  omega

theorem markers_pos_iff (markup : String) :
    0 < markers markup ↔ holds Marker.host.toList markup.toList = true := by
  have cut := length_pieces markup
  rw [pieces, List.length_map] at cut
  unfold holds
  cases found : breakOn? Marker.host.toList markup.toList with
  | none =>
      rw [splitOn, found, List.length_singleton] at cut
      simp only [Option.isSome_none, Bool.false_eq_true, iff_false]
      omega
  | some parts =>
      have inside : Marker.host.toList <:+: markup.toList :=
        ⟨parts.1, parts.2, (breakOn?_eq_some found).symm⟩
      have several := two_le_length_splitOn (by decide) inside
      simp only [Option.isSome_some, iff_true]
      omega

/-- Markup is cut exactly if that takes fewer bytes. -/
theorem compact_eq (markup : String) :
    compact markup = if (split (pieces markup)).bytes < (plain markup).bytes then split (pieces markup)
      else plain markup := by
  have saved := bytes_split_add markup
  have held := markers_pos_iff markup
  rw [compact]
  by_cases shorter : (split (pieces markup)).bytes < (plain markup).bytes
  · rw [if_pos shorter, held.1 (by omega), Bool.true_and]
    exact if_pos (decide_eq_true shorter)
  · rw [if_neg shorter]
    refine if_neg fun both => shorter ?_
    exact of_decide_eq_true (Bool.and_eq_true_iff.1 both).2

/-- Compaction loses nothing and never takes more bytes. The markup is cut exactly if that takes
fewer bytes, and that is so exactly if there is a marker in it; the pieces are what stands between
the markers. -/
theorem compact_spec (markup : String) :
    (compact markup).markup = markup ∧ (compact markup).bytes ≤ (plain markup).bytes ∧
      (compact markup = if (split (pieces markup)).bytes < (plain markup).bytes then
        split (pieces markup) else plain markup) ∧
      ((compact markup).isSplit = true ↔ 0 < markers markup) ∧
      (split (pieces markup)).bytes + 8 * markers markup = (plain markup).bytes + 2 ∧
      (split (pieces markup)).markup = markup ∧ (pieces markup).length = markers markup + 1 ∧
      ∀ piece ∈ pieces markup, ¬Marker.host.toList <:+: piece.toList := by
  have saved := bytes_split_add markup
  refine ⟨markup_compact markup, ?_, compact_eq markup, ?_, saved, markup_split_pieces markup,
    length_pieces markup, ?_⟩
  · rw [compact_eq]
    split
    · exact Nat.le_of_lt ‹_›
    · exact Nat.le_refl _
  · rw [compact_eq]
    split
    · simp only [isSplit, true_iff]
      omega
    · simp only [isSplit, Bool.false_eq_true, false_iff]
      omega
  · intro piece mem
    obtain ⟨part, listed, rfl⟩ := List.mem_map.1 mem
    rw [String.toList_ofList]
    exact not_infix_of_mem_splitOn (by decide) listed

end Skeleton

end Stencil
