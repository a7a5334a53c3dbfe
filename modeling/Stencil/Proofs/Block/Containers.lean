import Stencil.Proofs.Block.Identities
import Stencil.Proofs.Markup.RoundTrip

/-! # Containers of blocks

Fused markup without angle brackets in its texts is read as the tree of the fragments: each block
is a container under its identity, and each text between tags is one text. The open tag of a
container lexes to its lexeme since nothing in an identity is escaped, and texts lex up to the next
container.
-/

namespace Stencil.Fragment

open Text BlockTag Markup NodeTree

mutual

/-- What a fragment is in a document: a container with its identity, or a text in which the
references are decoded. -/
def tree : Fragment → NodeTree Unit
  | text content => node () (.text (decodeText content)) []
  | block name args body =>
      node () (.element "div" [(Marker.block, .string (identity name args))]) (trees body)

def trees : List Fragment → List (NodeTree Unit)
  | [] => []
  | f :: fs => tree f :: trees fs

end

theorem isText_tree (f : Fragment) : f.tree.isText = f.isText := by
  cases f <;> rfl

/-! ## Printable trees -/

theorem decodeText_ne {content : String} (some_text : content ≠ "") : decodeText content ≠ "" := by
  have filled : content.toList ≠ [] := fun empty => some_text (String.toList_inj.1 empty)
  intro nothing
  have empty : decode content.toList = [] := by
    simpa [decodeText, String.ofList_eq_empty_iff] using nothing
  cases same : content.toList with
  | nil => exact filled same
  | cons c cs =>
      rw [same, decode] at empty
      split at empty
      · split at empty <;> cases empty
      · cases empty

theorem parted_trees {fs : List Fragment} (sparse : Sparse fs) : Parted (trees fs) := by
  induction fs with
  | nil => exact .nil
  | cons f fs ih =>
      refine List.isChain_cons.2 ⟨fun t first both => ?_, ih sparse.tail⟩
      cases fs with
      | nil => cases first
      | cons g fs =>
          cases first
          rw [isText_tree, isText_tree] at both
          exact sparse.rel_head? rfl both

theorem plainName_container : PlainName "div".toList := .of_all rfl (c := 'd') rfl (by decide)

theorem plainName_block : PlainName Marker.block.toList := .of_all rfl (c := 'd') rfl (by decide)

theorem rules_container : TagRules.of "div" = {} := by decide

theorem elementPrintable_container (identity : String) {ts : List (NodeTree Unit)} (parted : Parted ts) :
    ElementPrintable "div" [(Marker.block, .string identity)] ts where
  plain := plainName_container
  distinct := by simp
  plains := List.forall_mem_singleton.2 plainName_block
  strings := List.forall_mem_singleton.2 ⟨identity, rfl⟩
  parted := parted
  void := by rw [rules_container]; nofun
  unclosed := fun _ _ _ _ _ => by rw [rules_container]; rfl
  raw := by rw [rules_container]; nofun
  escapable := by rw [rules_container]; nofun
  newline := by rw [rules_container]; nofun

mutual

theorem printable_tree : (f : Fragment) → f.Tidy → f.tree.Printable
  | .text _, tidy => ⟨decodeText_ne tidy, rfl⟩
  | .block name args body, tidy =>
      ⟨elementPrintable_container (identity name args) (parted_trees tidy.1), printable_trees body tidy.2⟩

theorem printable_trees : (fs : List Fragment) → TidyAll fs → PrintableAll (trees fs)
  | [], _ => trivial
  | f :: fs, tidy => ⟨printable_tree f tidy.1, printable_trees fs tidy.2⟩

end

/-! ## Lexing -/

theorem escaped_identity {name : String} {args : Option String} (named : IsName name.toList)
    (given : ∀ run ∈ args, IsName run.toList) :
    (identity name args).toList.flatMap escapedAttributeChar = (identity name args).toList := by
  have amp := not_mem_identity (c := '&') rfl (by decide) named given
  have quote := not_mem_identity (c := '"') rfl (by decide) named given
  have alone : ∀ c ∈ (identity name args).toList, escapedAttributeChar c = [c] := by
    intro c mem
    unfold escapedAttributeChar
    split
    · exact (amp mem).elim
    · exact (quote mem).elim
    · rfl
  rw [List.flatMap_congr alone, List.flatMap_singleton']

/-- A fused block is the open tag of its container, its fragments and the closing tag. -/
theorem toList_fuse_written {name : String} {args : Option String} (named : IsName name.toList)
    (given : ∀ run ∈ args, IsName run.toList) (body : List Fragment) :
    (fuse (.block name args body)).toList =
      writtenOpening Markup.quoted "div".toList [(Marker.block, identity name args)] ++
        (fuseAll body).toList ++ writtenClosing "div".toList := by
  rw [toList_fuse_block]
  simp [writtenOpening, writtenAttribute, Markup.quoted, escaped_identity named given, opening, writtenClosing]

theorem lexemes_block (name : String) (args : Option String) (body : List Fragment) :
    (tree (.block name args body)).lexemes =
      [.openTag "div" [(Marker.block, identity name args)] false] ++
        (lexemesAll (trees body) ++ [.closeTag "div"]) := by
  rw [tree, lexemes, rules_container]
  rfl

/-- Where the next fragment or nothing stands, texts end. -/
theorem ends_fuseAll {f : Fragment} {fs : List Fragment} {cs : List Char} (sparse : Sparse (f :: fs))
    (from_ : ∀ item ∈ itemsAll fs, item.IsFrom cs) {rest : List Char} (ended : Ends rest)
    (text : f.isText = true) : Ends ((fuseAll fs).toList ++ rest) := by
  cases fs with
  | nil => simpa [fuseAll] using ended
  | cons g fs =>
      cases g with
      | text content => exact (sparse.rel_head? (y := .text content) rfl ⟨text, rfl⟩).elim
      | block name args body =>
          obtain ⟨named, given⟩ := from_ (.opening name args) List.mem_cons_self
          right
          rw [fuseAll, String.toList_append, toList_fuse_written named given, List.append_assoc,
            List.append_assoc, List.append_assoc]
          exact startsMarkup_opening Markup.quoted plainName_container _ _

mutual

/-- A fused fragment lexes to the lexemes of its tree. -/
theorem lexes_fuse {cs : List Char} (plain : '<' ∉ cs) : (f : Fragment) →
    (∀ item ∈ f.items, item.IsFrom cs) → f.Tidy → (rest : List Char) → (f.isText = true → Ends rest) →
    Lexes f.fuse.toList rest f.tree.lexemes
  | .text content, from_, _, rest, ended => by
      obtain ⟨some_text, part, -⟩ := from_ _ (List.mem_singleton_self _)
      have filled : content.toList ≠ [] := fun empty => some_text (String.toList_inj.1 empty)
      exact lexes_run filled (fun mem => plain (part.subset mem)) (ended rfl)
  | .block name args body, from_, tidy, rest, _ => by
      obtain ⟨named, given⟩ := from_ (.opening name args) List.mem_cons_self
      have inside : ∀ item ∈ itemsAll body, item.IsFrom cs := fun item mem =>
        from_ item (List.mem_cons_of_mem _ (List.mem_append_left _ mem))
      have closes := startsMarkup_closing plainName_container rest
      have keeps (behind : List Char) : KeepsNewline (TagRules.of "div") behind := by
        rw [rules_container]
        nofun
      have reads : ReadsBack Markup.quoted [(Marker.block, identity name args)] :=
        readsBack_of_legible legible_quoted (List.forall_mem_singleton.2 plainName_block)
      have opens := lexes_opening reads plainName_container
        ((fuseAll body).toList ++ writtenClosing "div".toList ++ rest)
        (.inr ⟨congrArg TagRules.content rules_container, keeps _⟩)
      have content := lexes_fuseAll plain body inside tidy (writtenClosing "div".toList ++ rest) (.inr closes)
      have closing := lexes_closing plainName_container rest
      rw [toList_fuse_written named given, List.append_assoc]
      rw [lexemes_block]
      exact opens.append (content.append closing)

theorem lexes_fuseAll {cs : List Char} (plain : '<' ∉ cs) : (fs : List Fragment) →
    (∀ item ∈ itemsAll fs, item.IsFrom cs) → Neat fs → (rest : List Char) → Ends rest →
    Lexes (fuseAll fs).toList rest (lexemesAll (trees fs))
  | [], _, _, rest, _ => lexes_nil rest
  | f :: fs, from_, neat, rest, ended => by
      obtain ⟨own, others⟩ := List.forall_mem_append.1 from_
      have further := lexes_fuseAll plain fs others ⟨neat.1.tail, neat.2.2⟩ rest ended
      have here := lexes_fuse plain f own neat.2.1 ((fuseAll fs).toList ++ rest)
        (ends_fuseAll neat.1 others ended)
      rw [fuseAll, String.toList_append]
      exact here.append further

end

/-! ## The trees -/

variable {source : Source} {alternate : Bool} {fragments : List Fragment}

/-- The fused fragments of a text are read as their trees, with nothing to mend. -/
theorem parse_fuse_of_split (h : split source alternate = .ok fragments) (plain : '<' ∉ source.text.toList) :
    parse (fuseAll fragments) = (trees fragments, []) := by
  have neat := (split_ok h).2
  have read := parse_of_lexes (parted_trees neat.1)
    ((printable_trees fragments neat.2).readable legible_quoted) (lexes_fuseAll plain fragments (isFrom_of_split h) neat [] (.inl rfl))
  rw [read]
  exact congrArg (·, []) (List.map_id'' shape_eq_self _)

/-- Markup that is read as trees without a flaw is planted as a fragment with these trees. -/
theorem planted_of_parse {markup : String} {ts : List (NodeTree Unit)} (read : parse markup = (ts, []))
    {d : Document} (accounted : d.Accounted) :
    ∃ root d' t, Document.plantMarkup markup d = .ok (root, []) d' ∧
      d'.tree root = .ok t ∧ t.shape = node () .fragment ts := by
  obtain ⟨t, label, planted⟩ := Document.planted_plant (node () .fragment ts) none d accounted
  have run := Document.plantMarkup_run accounted markup
  rw [read] at run
  refine ⟨_, _, t, run, ?_, ?_⟩
  · rw [← label]
    exact Document.tree_of_stands planted.stands planted.nodup
  · rw [planted.shape, shape_eq_self]

/-- Fused fragments of a text without angle brackets are read as the tree of the fragments, in every
document and whatever has been done to it. The marker of each block reads as the name and the
arguments of the block, and the markers are found in order unless the text holds the beginning of
one itself. -/
theorem read_fuseAll (h : split source alternate = .ok fragments) (plain : '<' ∉ source.text.toList) :
    parse (fuseAll fragments) = (trees fragments, []) ∧
    (∀ (name : String) (strict : Bool) (ops : List Operation), ∃ root d t,
      Document.plantMarkup (fuseAll fragments) (Operation.run { name := name, strict := strict } ops) =
        .ok (root, []) d ∧
      d.tree root = .ok t ∧ t.shape = node () .fragment (trees fragments)) ∧
    (∀ block ∈ blocksAll fragments,
      Iteration.parse? (identity block.1 block.2) = some { source := block.1, itemName := block.2 }) ∧
    (¬(Marker.block ++ "=\"").toList <:+: source.text.toList →
      markers (fuseAll fragments) = (blocksAll fragments).map fun block => identity block.1 block.2) := by
  have read := parse_fuse_of_split h plain
  refine ⟨read, fun name strict ops => ?_, fun block mem => ?_, fun out => ?_⟩
  · exact planted_of_parse read
      (Operation.lasting_run Document.lasting_accounted ops (Document.accounted_empty name strict))
  · obtain ⟨named, given⟩ := isName_blocksAll fragments (isFrom_of_split h) block mem
    exact parse?_identity named given
  · rw [String.toList_append] at out
    exact markers_fuseAll h out

/-- A text with a block inside another one. -/
def sample : Source where
  name := ""
  text := "1 > \"&lt;\x7b\x7b#list x\x7d\x7d&\x7b\x7b^ a.b \x7d\x7d\x7b\x7b/a.b\x7d\x7d\x7d\x7b\x7b/list\x7d\x7d"

theorem split_sample : split sample true = .ok
    [text "1 > \"&lt;", block "list" (some "x") [text "&", block "a.b" none [], text "\x7d"]] := by
  with_unfolding_all rfl

/-- References, quotes and braces are in the texts between the tags. -/
theorem read_fuseAll_nested :
    let source : Source :=
      { name := "", text := "1 > \"&lt;\x7b\x7b#list x\x7d\x7d&\x7b\x7b^ a.b \x7d\x7d\x7b\x7b/a.b\x7d\x7d\x7d\x7b\x7b/list\x7d\x7d" }
    let fragments := [text "1 > \"&lt;", block "list" (some "x") [text "&", block "a.b" none [], text "\x7d"]]
    split source true = .ok fragments ∧ '<' ∉ source.text.toList ∧
      parse (fuseAll fragments) = (trees fragments, []) ∧
      markers (fuseAll fragments) = ["list x", "a.b"] := by
  intro source fragments
  have done : split source true = .ok fragments := split_sample
  have plain : '<' ∉ source.text.toList := by decide
  obtain ⟨read, -, -, marked⟩ := read_fuseAll done plain
  have out : 'p' ∉ source.text.toList := by decide
  exact ⟨done, plain, read, marked fun inside => out (inside.subset (by decide))⟩

end Stencil.Fragment
