import Stencil.Proofs.Block.Spelling
import Stencil.Proofs.Block.Splitting

/-! # Fused markup

Fusing puts what stood on both sides of a tag next to the tags of a container. No block tag comes
about in this way, since the angle brackets of the container have no place in block tags, and the
name and arguments between them hold no brace. Fused markup is therefore left alone when its blocks
are looked for again.
-/

namespace Stencil

open Text BlockTag Pieces

/-! ## What the fragments of a text are made of -/

/-- Items of a text: pieces of it without a tag, and names. -/
def BlockItem.IsFrom (cs : List Char) : BlockItem → Prop
  | .text content => content ≠ "" ∧ content.toList <:+: cs ∧ Reader.Misses at? content.toList
  | .opening name args => IsName name.toList ∧ ∀ run ∈ args, IsName run.toList
  | .closing _ => True

namespace Fragment

variable {source : Source} {alternate : Bool} {fragments : List Fragment}

theorem split_ok (h : split source alternate = .ok fragments) :
    itemsAll fragments = (pieces source).items alternate ++ textItems (trailing source) ∧ Neat fragments := by
  have reader : BlockTag.pattern.first? = BlockTag.at? := funext pattern_first?
  have form : split source alternate =
      ((pieces source).foldlM (Nesting.step source alternate) Nesting.start).bind
        (Nesting.finish source (trailing source)) := by
    rw [pieces, trailing, reader]
    rfl
  have inside : joined ([] ++ pieces source) <+: source.text.toList := ⟨trailing source, joined_pieces source⟩
  have run := Nesting.foldlM_reached (Nesting.reached_start alternate) inside
  rw [form] at h
  cases ran : (pieces source).foldlM (Nesting.step source alternate) Nesting.start with
  | ok n =>
      rw [ran] at run h
      have finished := finish_spec run
      rw [show n.finish source (trailing source) = .ok fragments from h] at finished
      exact finished.2
  | error e =>
      rw [ran] at h
      cases h

theorem misses_pieces (source : Source) :
    (∀ piece ∈ pieces source, Reader.Misses at? piece.1 ∧ piece.2.Spelled) ∧
      Reader.Misses at? (trailing source) := by
  have reader : BlockTag.pattern.first? = BlockTag.at? := funext pattern_first?
  have between := find?_pieces reads_at? (local_at?.grows reads_at?) source.text.toList
  rw [pieces, trailing, reader]
  refine ⟨fun piece mem => ⟨(find?_eq_none_iff reads_at?).1 (between.1 piece mem), ?_⟩,
    (find?_eq_none_iff reads_at?).1 between.2⟩
  obtain ⟨inside, rest, read⟩ := read_of_mem_tiles mem
  exact spelled_of_at? read

theorem infix_of_mem_pieces {piece : List Char × BlockTag} (mem : piece ∈ pieces source) :
    piece.1 <:+: source.text.toList := by
  obtain ⟨front, back, whole⟩ := List.append_of_mem mem
  rw [← joined_pieces source, whole]
  exact ⟨joined front, piece.2.text ++ joined back ++ trailing source, by simp [joined]⟩

theorem trailing_suffix (source : Source) : trailing source <:+ source.text.toList :=
  ⟨joined (pieces source), joined_pieces source⟩

theorem isFrom_textItems {cs whole : List Char} (part : cs <:+: whole) (misses : Reader.Misses at? cs) :
    ∀ item ∈ textItems cs, item.IsFrom whole := by
  unfold textItems
  split
  · nofun
  · rename_i filled
    refine List.forall_mem_singleton.2 ⟨?_, by rwa [String.toList_ofList], by rwa [String.toList_ofList]⟩
    simpa [String.ofList_eq_empty_iff] using filled

theorem isFrom_tagItem {tag : BlockTag} (h : tag.Spelled) (cs : List Char) :
    (tagItem alternate tag).IsFrom cs := by
  unfold tagItem
  split
  · refine ⟨by simpa using h.name, fun run mem => ?_⟩
    obtain ⟨given, there, rfl⟩ := Option.map_eq_some_iff.1 mem
    simpa using h.args given there
  · trivial

/-- The fragments of a text are made of pieces of it and of names. -/
theorem isFrom_of_split (h : split source alternate = .ok fragments) :
    ∀ item ∈ itemsAll fragments, item.IsFrom source.text.toList := by
  obtain ⟨tagged, last⟩ := misses_pieces source
  rw [(split_ok h).1]
  refine List.forall_mem_append.2 ⟨fun item mem => ?_,
    isFrom_textItems (trailing_suffix source).isInfix last⟩
  obtain ⟨piece, there, mem⟩ := List.mem_flatMap.1 mem
  obtain ⟨misses, spelled⟩ := tagged piece there
  rcases List.mem_append.1 mem with mem | mem
  · exact isFrom_textItems (infix_of_mem_pieces there) misses item mem
  · exact List.mem_singleton.1 mem ▸ isFrom_tagItem spelled _

/-! ## Markup without tags -/

theorem not_mem_tag {c : Char} (foreign : hasPlace c = false) {text rest : List Char} {tag : BlockTag}
    (h : at? text = some (tag, rest)) : c ∉ tag.text := by
  intro mem
  have place := (spelled_of_at? h).hasPlace c mem
  rw [foreign] at place
  cases place

theorem misses_append_cons {c : Char} {as bs : List Char} (foreign : hasPlace c = false)
    (h : Reader.Misses at? as) (k : Reader.Misses at? bs) : Reader.Misses at? (as ++ c :: bs) :=
  h.append_cons local_at? reads_at? (not_mem_tag foreign) k

/-- A text without an opening brace holds no tag. -/
theorem misses_of_not_mem {cs : List Char} (out : '\x7b' ∉ cs) : Reader.Misses at? cs := by
  rintro front back rfl
  refine Classical.byContradiction fun there => ?_
  obtain ⟨sigil, inner, rfl⟩ := at?_ne_none there
  exact out (by simp)

theorem not_mem_name {c : Char} (unnamed : isNameChar c = false) {name : String} (h : IsName name.toList) :
    c ∉ name.toList := by
  intro mem
  have named := h.2 c mem
  rw [unnamed] at named
  cases named

/-- The identity of a block holds name characters and, with arguments, a space. -/
theorem not_mem_identity {c : Char} (unnamed : isNameChar c = false) (other : c ≠ ' ') {name : String}
    {args : Option String} (named : IsName name.toList) (given : ∀ run ∈ args, IsName run.toList) :
    c ∉ (identity name args).toList := by
  have out := not_mem_name unnamed named
  cases args with
  | none => exact out
  | some run =>
      have also := not_mem_name unnamed (given run rfl)
      simp [identity, out, also, other]

/-- What stands between the brackets of a container's open tag. -/
def opening (name : String) (args : Option String) : String :=
  "div " ++ Marker.block ++ "=\"" ++ identity name args ++ "\""

theorem toList_fuse_block (name : String) (args : Option String) (body : List Fragment) :
    (fuse (.block name args body)).toList =
      '<' :: ((opening name args).toList ++ '>' :: ((fuseAll body).toList ++ '<' :: ("/div".toList ++ ['>']))) := by
  simp [fuse, opening]

theorem misses_opening {name : String} {args : Option String} (named : IsName name.toList)
    (given : ∀ run ∈ args, IsName run.toList) : Reader.Misses at? (opening name args).toList := by
  refine misses_of_not_mem fun mem => ?_
  rw [opening, String.toList_append, String.toList_append] at mem
  rcases List.mem_append.1 mem with mem | mem
  · rcases List.mem_append.1 mem with mem | mem
    · exact absurd mem (by decide)
    · exact not_mem_identity rfl (by decide) named given mem
  · exact absurd mem (by decide)

/-- Behind a text there is markup or the end. -/
theorem head?_fuseAll {f : Fragment} {fs : List Fragment} (sparse : Sparse (f :: fs)) {rest : List Char}
    (ended : ∀ c ∈ rest.head?, c = '<') (text : f.isText = true) :
    ∀ c ∈ ((fuseAll fs).toList ++ rest).head?, c = '<' := by
  cases fs with
  | nil => simpa [fuseAll] using ended
  | cons g fs =>
      cases g with
      | text content => exact (sparse.rel_head? (y := .text content) rfl ⟨text, rfl⟩).elim
      | block name args body =>
          rw [fuseAll, String.toList_append, toList_fuse_block]
          rintro _ ⟨⟩
          rfl

mutual

/-- No tag is in the markup of a fragment, nor does one begin in it that ends behind it. -/
theorem misses_fuse {cs : List Char} : (f : Fragment) → (∀ item ∈ f.items, item.IsFrom cs) → f.Tidy →
    (rest : List Char) → Reader.Misses at? rest → (f.isText = true → ∀ c ∈ rest.head?, c = '<') →
    Reader.Misses at? (f.fuse.toList ++ rest)
  | .text content, from_, _, rest, behind, ended => by
      obtain ⟨-, -, misses⟩ := from_ _ (List.mem_singleton_self _)
      rw [fuse]
      cases rest with
      | nil => rwa [List.append_nil]
      | cons c rest =>
          obtain rfl := ended rfl c rfl
          exact misses_append_cons rfl misses fun front back same =>
            behind ('<' :: front) back (by rw [same]; rfl)
  | .block name args body, from_, tidy, rest, behind, _ => by
      obtain ⟨named, given⟩ := from_ (.opening name args) List.mem_cons_self
      have inside : ∀ item ∈ itemsAll body, item.IsFrom cs := fun item mem =>
        from_ item (List.mem_cons_of_mem _ (List.mem_append_left _ mem))
      have nothing : Reader.Misses at? [] := misses_of_not_mem nofun
      have closing : Reader.Misses at? ([] ++ '<' :: ("/div".toList ++ '>' :: rest)) :=
        misses_append_cons rfl nothing (misses_append_cons rfl (misses_of_not_mem (by decide)) behind)
      have content := misses_fuseAll body inside tidy _ closing (by rintro _ ⟨⟩; rfl)
      have whole := misses_append_cons (c := '<') rfl nothing
        (misses_append_cons (c := '>') rfl (misses_opening named given) content)
      simpa [toList_fuse_block] using whole

theorem misses_fuseAll {cs : List Char} : (fs : List Fragment) → (∀ item ∈ itemsAll fs, item.IsFrom cs) →
    Neat fs → (rest : List Char) → Reader.Misses at? rest → (∀ c ∈ rest.head?, c = '<') →
    Reader.Misses at? ((fuseAll fs).toList ++ rest)
  | [], _, _, rest, behind, _ => by simpa [fuseAll] using behind
  | f :: fs, from_, neat, rest, behind, ended => by
      obtain ⟨own, others⟩ := List.forall_mem_append.1 from_
      have further := misses_fuseAll fs others ⟨neat.1.tail, neat.2.2⟩ rest behind ended
      have here := misses_fuse f own neat.2.1 ((fuseAll fs).toList ++ rest) further
        (head?_fuseAll neat.1 ended)
      simpa [fuseAll] using here

end

/-- No block tag is in the fused fragments of a text. -/
theorem misses_fuse_of_split (h : split source alternate = .ok fragments) :
    Reader.Misses at? (fuseAll fragments).toList := by
  have whole := misses_fuseAll fragments (isFrom_of_split h) (split_ok h).2 [] (misses_of_not_mem nofun) nofun
  rwa [List.append_nil] at whole

/-- A text without tags is left as it is. -/
theorem blockify_of_misses {name text : String} (h : Reader.Misses at? text.toList) (alternate : Bool) :
    blockify { name, text } alternate = .ok text := by
  have none_found := tiles_of_misses reads_at? h
  simp only [blockify, split, none_found, List.foldlM_nil]
  cases empty : text.toList.isEmpty with
  | true =>
      have same : text = "" := by simpa using empty
      subst same
      rfl
  | false =>
      show Except.map fuseAll (.ok (Nesting.addText text.toList Nesting.start).outer.reverse) = _
      simp [Nesting.addText, empty, Nesting.add, Nesting.start, Except.map, fuseAll, fuse]

/-- Blocks that are written as containers leave no place at which the pattern of block tags matches,
and the markup that they have become is left alone when its blocks are written as containers. -/
theorem blockify_idempotent {text : String} (h : blockify source alternate = .ok text) :
    (∀ front back, text.toList = front ++ back → BlockTag.pattern.first? back = none) ∧
      ∀ (name : String) (alternate : Bool), blockify { name, text } alternate = .ok text := by
  obtain ⟨fragments, done, rfl⟩ : ∃ fragments, split source alternate = .ok fragments ∧
      fuseAll fragments = text := by
    cases done : split source alternate with
    | error e =>
        rw [blockify, done] at h
        cases h
    | ok fragments =>
        rw [blockify, done] at h
        cases h
        exact ⟨fragments, rfl, rfl⟩
  have misses := misses_fuse_of_split done
  refine ⟨fun front back same => ?_, fun name alternate => blockify_of_misses misses alternate⟩
  rw [pattern_first?]
  exact misses front back same

/-- The braces that a removed tag leaves behind stay as they are. -/
theorem blockify_idempotent_braces :
    let source : Source := { name := "", text := "\x7b\x7b\x7b#a x\x7d\x7db\x7b\x7b/a\x7d\x7d#c\x7d\x7d" }
    let text := "\x7b<div data-poirot-block=\"a x\">b</div>#c\x7d\x7d"
    blockify source false = .ok text ∧
      (∀ front back, text.toList = front ++ back → BlockTag.pattern.first? back = none) ∧
        ∀ (name : String) (alternate : Bool), blockify { name, text } alternate = .ok text := by
  intro source text
  have done : blockify source false = .ok text := by decide +kernel
  exact ⟨done, blockify_idempotent done⟩

end Fragment

end Stencil
