import Stencil.Proofs.Compile.Template
import Stencil.Proofs.Text.Tiles

/-! # Directives and what is left of a text

The directives that are found in a text, and the literal pieces between them, which hold
none.
-/

namespace Stencil

/-! ## Nodes of a tree -/

namespace Markup.NodeTree

variable {ι : Type}

mutual

/-- What holds of the data of every node in a tree. -/
def Each (P : NodeData → Prop) : NodeTree ι → Prop
  | node _ data children => P data ∧ EachAll P children

def EachAll (P : NodeData → Prop) : List (NodeTree ι) → Prop
  | [] => True
  | t :: ts => Each P t ∧ EachAll P ts

end

end Markup.NodeTree

/-! ## Texts -/

open Text

/-- A text that holds no directive. -/
def Text.Plain (text : String) : Prop := find? Mustache.at? text.toList = none

theorem Text.plain_empty : Plain "" := rfl

/-- Blanks are no directive. -/
theorem Text.plain_of_isBlankText {text : String} (h : Markup.isBlankText text = true) :
    Plain text := by
  refine find?_eq_none_of_not (fun _ => Mustache.at?_eq_none) fun brace => ?_
  exact absurd (List.all_eq_true.1 h '{' brace) (by decide)

namespace Occurrence

variable {source : Source} {o : Occurrence} {found : List Occurrence}

theorem check_eq_ok {o' : Occurrence} (h : check source o = .ok o') : o' = o := by
  unfold check at h
  split at h
  · cases h
    rfl
  · cases h

/-- The first directive is checked and otherwise as it is found. -/
theorem first?_eq_ok_some (h : first? source = .ok (some o)) :
    ∃ inside, find? Mustache.at? source.text.toList = some inside ∧
      o = place 0 inside.before inside.thing ∧ check source o = .ok o := by
  unfold first? at h
  split at h
  · cases h
  · rename_i inside there
    cases checked : check source (place 0 inside.before inside.thing) with
    | error e => simp [checked, Except.map] at h
    | ok o' =>
        have same := check_eq_ok checked
        simp only [checked, Except.map, Except.ok.injEq, Option.some.injEq] at h
        subst h
        exact ⟨inside, there, same, same ▸ checked⟩

theorem first?_eq_ok_none (h : first? source = .ok none) : Plain source.text := by
  unfold first? at h
  split at h
  · assumption
  · rename_i inside _
    cases checked : check source (place 0 inside.before inside.thing) <;>
      simp [checked, Except.map] at h

theorem first?_of_plain (h : Plain source.text) : first? source = .ok none := by
  rw [first?, h]

theorem all_of_plain (h : Plain source.text) : all source = .ok [] := by
  have nothing : tiles Mustache.at? source.text.toList = ([], source.text.toList) := by
    rw [tiles, h]
  rw [all, nothing]
  rfl

/-- A directive that is all of the text is the first one, with nothing around it. -/
theorem find?_of_whole (h : whole? source = .ok (some o)) :
    ∃ m, find? Mustache.at? source.text.toList = some ⟨[], m, []⟩ ∧ o = place 0 [] m ∧
      check source o = .ok o := by
  unfold whole? at h
  cases found : first? source with
  | error e => simp [found, Except.map] at h
  | ok first =>
      simp only [found, Except.map, Except.ok.injEq, Option.filter_eq_some_iff] at h
      obtain ⟨rfl, size⟩ := h
      obtain ⟨⟨before, thing, after⟩, there, rfl, checked⟩ := first?_eq_ok_some found
      have text := find?_eq_some Mustache.reads_at? there
      have lengths : byteLength thing.text = byteLength source.text.toList := by
        have bytes := beq_iff_eq.1 size
        rw [← utf8ByteSize_ofList source.text.toList, String.ofList_toList, ← bytes, Occurrence.whole,
          utf8ByteSize_ofList]
        rfl
      rw [text] at lengths
      simp only [byteLength_append] at lengths
      obtain rfl := eq_nil_of_byteLength (show byteLength before = 0 by omega)
      obtain rfl := eq_nil_of_byteLength (show byteLength after = 0 by omega)
      exact ⟨thing, there, rfl, checked⟩

/-- A directive that is all of the text is the only one. -/
theorem all_of_whole (h : whole? source = .ok (some o)) : all source = .ok [o] := by
  obtain ⟨m, there, rfl, checked⟩ := find?_of_whole h
  have some_text : source.text.toList ≠ [] := by
    intro empty
    rw [empty] at there
    cases there
  rw [all, tiles_of_whole there some_text]
  simp [placeAll, checked, bind, Except.bind, pure, Except.pure]

/-- The directives of a text are checked and otherwise as they are found. -/
theorem all_eq_ok (h : all source = .ok found) :
    found = placeAll 0 (tiles Mustache.at? source.text.toList).1 := by
  have kept : ∀ (os found : List Occurrence), os.mapM (check source) = .ok found → found = os := by
    intro os
    induction os with
    | nil =>
        intro found h
        cases h
        rfl
    | cons o os ih =>
        intro found h
        rw [List.mapM_cons] at h
        obtain ⟨o', checked, h⟩ := bind_eq_ok.1 h
        obtain ⟨more, others, h⟩ := bind_eq_ok.1 h
        cases h
        rw [check_eq_ok checked, ih more others]
  exact kept _ _ h

theorem mem_placeAll {pieces : List (List Char × Mustache)} {start : Nat}
    (h : o ∈ placeAll start pieces) :
    ∃ tile ∈ pieces, o.preamble = String.ofList tile.1 ∧ o.mustache = tile.2 := by
  induction pieces generalizing start with
  | nil => cases h
  | cons tile more ih =>
      obtain ⟨before, m⟩ := tile
      rcases List.mem_cons.1 h with rfl | h
      · exact ⟨(before, m), by simp, rfl, rfl⟩
      · obtain ⟨tile, listed, same⟩ := ih h
        exact ⟨tile, List.mem_cons_of_mem _ listed, same⟩

/-- The text between two directives holds none. -/
theorem plain_preamble (h : all source = .ok found) (mem : o ∈ found) : Plain o.preamble := by
  rw [all_eq_ok h] at mem
  obtain ⟨tile, listed, same, -⟩ := mem_placeAll mem
  rw [Plain, same, String.toList_ofList]
  exact (find?_pieces Mustache.reads_at? Mustache.grows_at? _).1 tile listed

/-- The text behind the last directive holds none. -/
theorem plain_trailing (text : String) : Plain (trailing text) := by
  rw [Plain, trailing, String.toList_ofList]
  exact (find?_pieces Mustache.reads_at? Mustache.grows_at? _).2

theorem plain_of_all_nil (h : all source = .ok []) : Plain source.text := by
  have none_found := all_eq_ok h
  unfold Plain
  cases there : find? Mustache.at? source.text.toList with
  | none => rfl
  | some inside =>
      have shorter := find?_after_length_lt Mustache.reads_at? there
      rw [tiles, there] at none_found
      simp [shorter, placeAll] at none_found

end Occurrence

end Stencil
