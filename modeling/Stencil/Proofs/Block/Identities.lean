import Stencil.Proofs.Block.Fusing
import Stencil.Proofs.Text.Cut
import Stencil.Render.Iteration

/-! # The identities of blocks

The container of a block bears the identity of the block. As an iteration it reads as the name
and the arguments that it was made of, and the identities that are found in fused markup are those
of the blocks, each block before those inside it.
-/

namespace Stencil

open Text BlockTag

/-! ## Words -/

namespace Text

theorem leadingWord_append {run : List Char} (solid : ∀ c ∈ run, ¬isWhite c = true) (rest : List Char) :
    leadingWord (run ++ rest) = (run ++ (leadingWord rest).1, (leadingWord rest).2) := by
  induction run with
  | nil => rfl
  | cons c run ih =>
      obtain ⟨here, further⟩ := List.forall_mem_cons.1 solid
      rw [List.cons_append, leadingWord, ih further]
      simp [here]

theorem words_single {run : List Char} (some_run : run ≠ []) (solid : ∀ c ∈ run, ¬isWhite c = true) :
    words run = [run] := by
  have whole := leadingWord_append solid []
  rw [List.append_nil] at whole
  simp [words, whole, leadingWord, some_run]

theorem words_append {run : List Char} (some_run : run ≠ []) (solid : ∀ c ∈ run, ¬isWhite c = true)
    {c : Char} (white : isWhite c = true) (rest : List Char) :
    words (run ++ c :: rest) = run :: words rest := by
  have behind : leadingWord (c :: rest) = ([], words rest) := by simp [leadingWord, words, white]
  simp [words, leadingWord_append solid, behind, some_run]

end Text

theorem BlockTag.IsName.not_white {name : List Char} (h : IsName name) : ∀ c ∈ name, ¬isWhite c = true :=
  fun c mem white => isNameChar_white white (h.2 c mem)

namespace Fragment

/-- The identity of a block reads as an iteration over its name, each item under its arguments. -/
theorem parse?_identity {name : String} {args : Option String} (named : IsName name.toList)
    (given : ∀ run ∈ args, IsName run.toList) :
    Iteration.parse? (identity name args) = some { source := name, itemName := args } := by
  cases args with
  | none =>
      have single := words_single named.1 named.not_white
      simp [Iteration.parse?, identity, single]
  | some run =>
      have own := given run rfl
      have last := words_single own.1 own.not_white
      have both := words_append named.1 named.not_white (c := ' ') rfl run.toList
      simp [Iteration.parse?, identity, both, last]

/-! ## Markers -/

/-- What a marker begins with. -/
def needle : List Char := Marker.block.toList ++ ['=', '"']

/-- A marker with its value. -/
def writtenMarker (value : List Char) : List Char := needle ++ (value ++ ['"'])

theorem marker?_written {value : List Char} (out : '"' ∉ value) (rest : List Char) :
    marker? (writtenMarker value ++ rest) = some (value, rest) := by
  have all : ∀ c ∈ value, (c != '"') = true := fun c mem => by
    rw [bne_iff_ne]
    rintro rfl
    exact out mem
  have stops : ∀ c ∈ ('"' :: rest).head?, ¬(c != '"') = true := by
    rintro _ ⟨⟩
    decide
  have whole : writtenMarker value ++ rest = needle ++ (value ++ '"' :: rest) := by simp [writtenMarker]
  rw [marker?, whole, show Marker.block.toList ++ ['=', '"'] = needle from rfl, after?_append]
  simp only [takeWhile_run all stops, dropWhile_run all stops]

/-- The reader of markers consumes exactly the markers. -/
theorem reads_marker? : Reader.Reads marker? writtenMarker := by
  constructor
  · intro text value rest h
    unfold marker? at h
    split at h
    · cases h
    · rename_i inner found
      have whole := List.takeWhile_append_dropWhile (p := (· != '"')) (l := inner)
      split at h
      · rename_i quote behind dropped
        cases h
        have stop := List.head?_dropWhile_not (· != '"') inner
        rw [dropped] at stop whole
        obtain rfl : quote = '"' := by simpa using stop
        calc text = needle ++ inner := after?_eq_some found
          _ = needle ++ (inner.takeWhile (· != '"') ++ '"' :: rest) := congrArg (needle ++ ·) whole.symm
          _ = writtenMarker (inner.takeWhile (· != '"')) ++ rest := by simp [writtenMarker]
      · cases h
  · intro text value rest _ empty
    exact absurd (List.append_eq_nil_iff.1 empty).1 (by decide)

theorem needle_begins {text : List Char} (h : marker? text ≠ none) : needle <+: text := by
  unfold marker? at h
  split at h
  · exact (h rfl).elim
  · rename_i inner found
    exact ⟨inner, (after?_eq_some found).symm⟩

/-- No marker begins in a text that does not hold the beginning of one, if markup or nothing follows. -/
theorem marker?_of_outside {front back rest : List Char} (out : ¬needle <:+: front ++ back)
    (some_back : back ≠ []) (ended : ∀ c ∈ rest.head?, c = '<') : marker? (back ++ rest) = none := by
  refine Classical.byContradiction fun there => ?_
  obtain ⟨behind, whole⟩ := needle_begins there
  rcases List.append_eq_append_iff.1 whole with ⟨inside, rfl, -⟩ | ⟨_ | ⟨c, inside⟩, same, later⟩
  · exact out ⟨front, inside, by simp⟩
  · refine out ⟨front, [], ?_⟩
    rw [same]
    simp
  · have less : c = '<' := ended c (by rw [later]; rfl)
    have mem : '<' ∈ needle := by
      rw [same, less]
      simp
    exact absurd mem (by decide)

theorem things_text {cs rest : List Char} (out : ¬needle <:+: cs) (ended : ∀ c ∈ rest.head?, c = '<') :
    things marker? (cs ++ rest) = things marker? rest := by
  have later : ∀ front back, cs = front ++ back →
      things marker? (back ++ rest) = things marker? rest := by
    intro front back
    induction back generalizing front with
    | nil => exact fun _ => rfl
    | cons c back ih =>
        intro same
        have here := marker?_of_outside (same ▸ out) (List.cons_ne_nil c back) ended
        rw [List.cons_append] at here ⊢
        rw [things_skip reads_marker? here]
        exact ih (front ++ [c]) (by rw [same]; simp)
  exact later [] cs rfl

mutual

/-- The names and arguments of the blocks in a fragment, each block before those inside it. -/
def blocks : Fragment → List (String × Option String)
  | text _ => []
  | block name args body => (name, args) :: blocksAll body

def blocksAll : List Fragment → List (String × Option String)
  | [] => []
  | f :: fs => blocks f ++ blocksAll fs

end

/-- The identities of the blocks in fragments. -/
def identities (fs : List Fragment) : List String := (blocksAll fs).map fun block => identity block.1 block.2

mutual

theorem isName_blocks {cs : List Char} : (f : Fragment) → (∀ item ∈ f.items, item.IsFrom cs) →
    ∀ block ∈ f.blocks, IsName block.1.toList ∧ ∀ run ∈ block.2, IsName run.toList
  | .text _, _ => nofun
  | .block name args body, from_ => by
      have inside : ∀ item ∈ itemsAll body, item.IsFrom cs := fun item mem =>
        from_ item (List.mem_cons_of_mem _ (List.mem_append_left _ mem))
      exact List.forall_mem_cons.2 ⟨from_ (.opening name args) List.mem_cons_self,
        isName_blocksAll body inside⟩

theorem isName_blocksAll {cs : List Char} : (fs : List Fragment) → (∀ item ∈ itemsAll fs, item.IsFrom cs) →
    ∀ block ∈ blocksAll fs, IsName block.1.toList ∧ ∀ run ∈ block.2, IsName run.toList
  | [], _ => nofun
  | f :: fs, from_ => by
      obtain ⟨own, others⟩ := List.forall_mem_append.1 from_
      exact List.forall_mem_append.2 ⟨isName_blocks f own, isName_blocksAll fs others⟩

end

mutual

/-- The markers of a fused fragment come first, and nothing in it joins with what is behind it. -/
theorem things_fuse {cs : List Char} (plain : ¬needle <:+: cs) : (f : Fragment) →
    (∀ item ∈ f.items, item.IsFrom cs) → f.Tidy → (rest : List Char) →
    (f.isText = true → ∀ c ∈ rest.head?, c = '<') →
    things marker? (f.fuse.toList ++ rest) =
      f.blocks.map (fun block => (identity block.1 block.2).toList) ++ things marker? rest
  | .text content, from_, _, rest, ended => by
      obtain ⟨-, part, -⟩ := from_ _ (List.mem_singleton_self _)
      exact things_text (fun inside => plain (inside.trans part)) (ended rfl)
  | .block name args body, from_, tidy, rest, _ => by
      obtain ⟨named, given⟩ := from_ (.opening name args) List.mem_cons_self
      have inside : ∀ item ∈ itemsAll body, item.IsFrom cs := fun item mem =>
        from_ item (List.mem_cons_of_mem _ (List.mem_append_left _ mem))
      have content := things_fuseAll plain body inside tidy ('<' :: '/' :: 'd' :: 'i' :: 'v' :: '>' :: rest)
        (by rintro _ ⟨⟩; rfl)
      have read := marker?_written (not_mem_identity (c := '"') rfl (by decide) named given)
        ('>' :: ((fuseAll body).toList ++ '<' :: '/' :: 'd' :: 'i' :: 'v' :: '>' :: rest))
      have whole : (fuse (.block name args body)).toList ++ rest = '<' :: 'd' :: 'i' :: 'v' :: ' ' ::
          (writtenMarker (identity name args).toList ++
            ('>' :: ((fuseAll body).toList ++ '<' :: '/' :: 'd' :: 'i' :: 'v' :: '>' :: rest))) := by
        simp [toList_fuse_block, Fragment.opening, writtenMarker, needle]
      have skip {c : Char} {cs : List Char} (h : marker? (c :: cs) = none) :
          things marker? (c :: cs) = things marker? cs := things_skip reads_marker? h
      rw [whole, skip rfl, skip rfl, skip rfl, skip rfl, skip rfl, things_read reads_marker? read, skip rfl,
        content, skip rfl, skip rfl, skip rfl, skip rfl, skip rfl, skip rfl, blocks, List.map_cons,
        List.cons_append]

theorem things_fuseAll {cs : List Char} (plain : ¬needle <:+: cs) : (fs : List Fragment) →
    (∀ item ∈ itemsAll fs, item.IsFrom cs) → Neat fs → (rest : List Char) →
    (∀ c ∈ rest.head?, c = '<') →
    things marker? ((fuseAll fs).toList ++ rest) =
      (blocksAll fs).map (fun block => (identity block.1 block.2).toList) ++ things marker? rest
  | [], _, _, rest, _ => by simp [fuseAll, blocksAll]
  | f :: fs, from_, neat, rest, ended => by
      obtain ⟨own, others⟩ := List.forall_mem_append.1 from_
      have further := things_fuseAll plain fs others ⟨neat.1.tail, neat.2.2⟩ rest ended
      have here := things_fuse plain f own neat.2.1 ((fuseAll fs).toList ++ rest)
        (head?_fuseAll neat.1 ended)
      rw [fuseAll, String.toList_append, List.append_assoc, here, further, blocksAll, List.map_append,
        List.append_assoc]

end

/-- The markers in the fused fragments of a text that holds no beginning of a marker itself. -/
theorem markers_fuseAll {source : Source} {alternate : Bool} {fragments : List Fragment}
    (h : split source alternate = .ok fragments) (plain : ¬needle <:+: source.text.toList) :
    markers (fuseAll fragments) = identities fragments := by
  have found := things_fuseAll plain fragments (isFrom_of_split h) (split_ok h).2 [] nofun
  have nothing : things marker? [] = [] := by rw [things, tiles]; rfl
  rw [List.append_nil, nothing, List.append_nil] at found
  have whole : markers (fuseAll fragments) = (things marker? (fuseAll fragments).toList).map String.ofList := by
    simp [markers, things]
  rw [whole, found, identities, List.map_map]
  exact List.map_congr_left fun block _ => String.ofList_toList

end Fragment

end Stencil
