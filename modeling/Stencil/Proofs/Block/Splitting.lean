import Mathlib.Data.List.Chain
import Stencil.Proofs.Block.Matching
import Stencil.Proofs.Block.Nested
import Stencil.Proofs.Text.Spans

/-! # Splitting a text into blocks

A text is split into fragments exactly if its tags are well nested. Read in order, the fragments
then give the tags and the texts between them again, with no text empty or next to another one.
Else the split is refused at the first tag behind which nothing well nested can follow, or at
the innermost tag whose block is still open at the end.
-/

namespace Stencil

open Text

/-! ## What is read in order -/

/-- A text between tags, or a tag. -/
inductive BlockItem where
  | text (content : String)
  | opening (name : String) (args : Option String)
  | closing (name : String)

namespace Fragment

mutual

/-- A block is read as its opening tag, its fragments and its closing tag. -/
def items : Fragment → List BlockItem
  | text content => [.text content]
  | block name args body => .opening name args :: itemsAll body ++ [.closing name]

def itemsAll : List Fragment → List BlockItem
  | [] => []
  | f :: fs => items f ++ itemsAll fs

end

theorem itemsAll_append (fs gs : List Fragment) : itemsAll (fs ++ gs) = itemsAll fs ++ itemsAll gs := by
  induction fs with
  | nil => rfl
  | cons f fs ih => rw [List.cons_append, itemsAll, itemsAll, ih, List.append_assoc]

def isText : Fragment → Bool
  | text _ => true
  | block _ _ _ => false

/-- No two texts stand next to each other. -/
def Sparse (fs : List Fragment) : Prop := fs.IsChain fun f g => ¬(f.isText = true ∧ g.isText = true)

mutual

/-- No text is empty, and none in a block stands next to another one. -/
def Tidy : Fragment → Prop
  | text content => content ≠ ""
  | block _ _ body => Sparse body ∧ TidyAll body

def TidyAll : List Fragment → Prop
  | [] => True
  | f :: fs => Tidy f ∧ TidyAll fs

end

theorem tidyAll_iff (fs : List Fragment) : TidyAll fs ↔ ∀ f ∈ fs, f.Tidy := by
  induction fs with
  | nil => simp [TidyAll]
  | cons f fs ih => rw [TidyAll, ih, List.forall_mem_cons]

/-- Fragments of one list that are tidy themselves and in their order. -/
def Neat (fs : List Fragment) : Prop := Sparse fs ∧ TidyAll fs

theorem neat_nil : Neat [] := ⟨.nil, trivial⟩

theorem Neat.cons {f : Fragment} {fs : List Fragment} (h : Neat fs) (tidy : f.Tidy)
    (apart : ∀ g ∈ fs.head?, ¬(f.isText = true ∧ g.isText = true)) : Neat (f :: fs) :=
  ⟨List.isChain_cons.2 ⟨apart, h.1⟩, tidy, h.2⟩

theorem Neat.reverse {fs : List Fragment} (h : Neat fs) : Neat fs.reverse := by
  refine ⟨List.isChain_reverse.2 (h.1.imp fun f g apart both => apart both.symm), ?_⟩
  rw [tidyAll_iff]
  exact fun f mem => (tidyAll_iff fs).1 h.2 f (List.mem_reverse.1 mem)

end Fragment

open Fragment BlockTag

/-! ## The tags of a text -/

/-- The tags of a text, each with the text since the one before. -/
abbrev Pieces : Type := List (List Char × BlockTag)

namespace Pieces

def tags (pieces : Pieces) : List BlockTag := pieces.map Prod.snd

/-- The pieces put in order. -/
def joined (pieces : Pieces) : List Char := pieces.flatMap fun (before, tag) => before ++ tag.text

/-- A text that is not empty. -/
def textItems (cs : List Char) : List BlockItem :=
  if cs.isEmpty then [] else [.text (String.ofList cs)]

def tagItem (alternate : Bool) (tag : BlockTag) : BlockItem :=
  if tag.opens alternate then .opening (String.ofList tag.name) (tag.args.map String.ofList)
  else .closing (String.ofList tag.name)

/-- The tags and the texts that are not empty, in order. -/
def items (alternate : Bool) (pieces : Pieces) : List BlockItem :=
  pieces.flatMap fun (before, tag) => textItems before ++ [tagItem alternate tag]

theorem tags_append (pieces more : Pieces) : tags (pieces ++ more) = tags pieces ++ tags more :=
  List.map_append

theorem joined_append (pieces more : Pieces) : joined (pieces ++ more) = joined pieces ++ joined more :=
  List.flatMap_append

theorem items_append (alternate : Bool) (pieces more : Pieces) :
    items alternate (pieces ++ more) = items alternate pieces ++ items alternate more :=
  List.flatMap_append

end Pieces

open Pieces

/-! ## Open blocks -/

/-- The open blocks stand in the text where they have been opened, innermost first, and what
follows each of them up to the next one is well nested. -/
inductive Stands (alternate : Bool) : Pieces → List OpenBlock → Prop
  | nested {pieces : Pieces} : Nested alternate (tags pieces) → Stands alternate pieces []
  | opened {outside inside : Pieces} {before : List Char} {tag : BlockTag} {b : OpenBlock}
      {rest : List OpenBlock} :
      Stands alternate outside rest → tag.opens alternate = true → Nested alternate (tags inside) →
      b.name = String.ofList tag.name → b.start = byteLength (joined outside ++ before) →
      b.stop = b.start + byteLength tag.text →
      Stands alternate (outside ++ (before, tag) :: inside) (b :: rest)

namespace Stands

variable {alternate : Bool} {pieces more : Pieces} {opened : List OpenBlock}

theorem append (h : Stands alternate pieces opened) (hm : Nested alternate (tags more)) :
    Stands alternate (pieces ++ more) opened := by
  cases h with
  | nested h =>
      refine .nested ?_
      rw [tags_append]
      exact h.append hm
  | opened outside opens inside named start stop =>
      rw [List.append_assoc, List.cons_append]
      refine .opened outside opens ?_ named start stop
      rw [tags_append]
      exact inside.append hm

theorem nested_of_nil (h : Stands alternate pieces []) : Nested alternate (tags pieces) := by
  cases h with
  | nested h => exact h

/-- The innermost open block has its tag in the text, and what follows the tag is well nested. -/
theorem exists_opening {top : OpenBlock} {rest : List OpenBlock} (h : Stands alternate pieces (top :: rest)) :
    ∃ outside before tag inside, pieces = outside ++ (before, tag) :: inside ∧
      tag.opens alternate = true ∧ Nested alternate (tags inside) ∧
        top.start = byteLength (joined outside ++ before) ∧ top.stop = top.start + byteLength tag.text := by
  cases h with
  | opened _ opens inside _ start stop => exact ⟨_, _, _, _, rfl, opens, inside, start, stop⟩

/-- The names of the open blocks are those that are left open by the tags. -/
theorem left? (h : Stands alternate pieces opened) :
    left? alternate [] (tags pieces) = some (opened.map (·.name.toList)) := by
  induction h with
  | nested h => exact h.left?_eq []
  | opened _ opens inside named _ _ ih =>
      rw [tags_append, left?_append, ih, Option.bind_some, tags, List.map_cons, left?_opens opens]
      refine (inside.left?_eq _).trans ?_
      rw [List.map_cons, named, String.toList_ofList]

/-- All open blocks can still be closed. -/
theorem viable (h : Stands alternate pieces opened) : Viable alternate (tags pieces) := by
  induction h with
  | nested h => exact h.viable
  | @opened _ inside _ tag _ _ _ opens nested _ _ _ ih =>
      obtain ⟨more, whole⟩ := ih
      let closing : BlockTag := { sigil := '/', name := tag.name, args := none, text := [] }
      have block : Nested alternate (tag :: tags inside ++ closing :: []) := .block opens rfl rfl nested .nil
      have all := block.insert whole _ _ rfl
      exact ⟨closing :: more, by simpa [tags] using all⟩

/-- What is collected in a block does not matter to where it stands. -/
theorem add {n : Nesting} (f : Fragment) (h : Stands alternate pieces n.opened) :
    Stands alternate pieces (n.add f).opened := by
  unfold Nesting.add
  split
  · exact h
  · rename_i top rest same
    rw [same] at h
    cases h with
    | opened outside opens inside named start stop =>
        exact .opened outside opens inside named start stop

end Stands

/-! ## The state of the reading -/

namespace Nesting

variable {n : Nesting} {source : Source} {alternate : Bool}

/-- The fragments outside of all blocks and in each open one, in the order in which they have been read. -/
def openItems : List OpenBlock → List BlockItem
  | [] => []
  | b :: rest => openItems rest ++ .opening b.name b.args :: itemsAll b.body.reverse

def items (n : Nesting) : List BlockItem := itemsAll n.outer.reverse ++ openItems n.opened

/-- The lists of fragments that are being collected, the innermost first. -/
def lists (n : Nesting) : List (List Fragment) := n.opened.map (·.body) ++ [n.outer]

theorem items_add (f : Fragment) (n : Nesting) : (n.add f).items = n.items ++ f.items := by
  unfold add
  split
  · rename_i none_open
    simp [items, none_open, openItems, itemsAll_append, itemsAll]
  · rename_i top rest some_open
    simp [items, some_open, openItems, itemsAll_append, itemsAll]

theorem lists_add (f : Fragment) (n : Nesting) :
    ∃ top rest, n.lists = top :: rest ∧ (n.add f).lists = (f :: top) :: rest := by
  unfold add
  split
  · rename_i none_open
    exact ⟨n.outer, [], by simp [lists, none_open], by simp [lists, none_open]⟩
  · rename_i top rest some_open
    exact ⟨top.body, rest.map (·.body) ++ [n.outer], by simp [lists, some_open], by simp [lists]⟩

/-- The state behind some pieces of the text. -/
structure Reached (alternate : Bool) (pieces : Pieces) (n : Nesting) : Prop where
  offset : n.offset = byteLength (joined pieces)
  stands : Stands alternate pieces n.opened
  items : n.items = pieces.items alternate
  neat : ∀ fs ∈ n.lists, Neat fs
  ready : ∀ fs ∈ n.lists.head?, ∀ f ∈ fs.head?, f.isText = false

theorem reached_start (alternate : Bool) : Reached alternate [] start where
  offset := rfl
  stands := .nested .nil
  items := rfl
  neat := by simpa [lists, start] using neat_nil
  ready := by simp [lists, start]

/-- The state behind some pieces of the text and the text that follows them. -/
structure Amid (alternate : Bool) (pieces : Pieces) (before : List Char) (n : Nesting) : Prop where
  stands : Stands alternate pieces n.opened
  items : n.items = pieces.items alternate ++ textItems before
  neat : ∀ fs ∈ n.lists, Neat fs

section Steps

variable {pieces : Pieces} {before : List Char} {tag : BlockTag}

theorem joined_last : joined (pieces ++ [(before, tag)]) = joined pieces ++ before ++ tag.text := by
  rw [joined_append, List.append_assoc]
  exact congrArg (joined pieces ++ ·) (List.append_nil _)

theorem items_last : Pieces.items alternate (pieces ++ [(before, tag)]) =
    pieces.items alternate ++ textItems before ++ [tagItem alternate tag] := by
  rw [items_append, List.append_assoc]
  exact congrArg (pieces.items alternate ++ ·) (List.append_nil _)

/-- A text is added to the innermost list unless it is empty. -/
theorem Reached.addText (h : Reached alternate pieces n) (before : List Char) :
    Amid alternate pieces before (n.addText before) := by
  unfold Nesting.addText
  split
  · rename_i empty
    exact ⟨h.stands, by rw [h.items, textItems, if_pos empty, List.append_nil], h.neat⟩
  · rename_i filled
    obtain ⟨top, rest, lists, added⟩ := lists_add (.text (String.ofList before)) n
    have neat := h.neat
    have ready := h.ready
    rw [lists] at neat ready
    obtain ⟨here, others⟩ := List.forall_mem_cons.1 neat
    have some_text : String.ofList before ≠ "" := by
      simpa [String.ofList_eq_empty_iff] using filled
    have apart : ∀ g ∈ top.head?, ¬((Fragment.text (String.ofList before)).isText = true ∧ g.isText = true) := by
      intro g first both
      rw [ready top rfl g first] at both
      exact Bool.false_ne_true both.2
    refine ⟨h.stands.add _, ?_, ?_⟩
    · rw [items_add, h.items, textItems, if_neg filled]
      rfl
    · rw [added]
      exact List.forall_mem_cons.2 ⟨here.cons some_text apart, others⟩

variable {m : Nesting} (h : Amid alternate pieces before m)
include h

theorem Amid.open (opens : tag.opens alternate = true) {first : Nat}
    (place : first = byteLength (joined pieces ++ before)) :
    Reached alternate (pieces ++ [(before, tag)])
      { m with
        offset := first + byteLength tag.text
        opened :=
          { name := String.ofList tag.name, args := tag.args.map String.ofList, start := first,
            stop := first + byteLength tag.text, body := [] } :: m.opened } where
  offset := by rw [joined_last, byteLength_append, place]
  stands := .opened h.stands opens .nil rfl place rfl
  items := by
    rw [items_last, ← h.items, tagItem, if_pos opens]
    simp [Nesting.items, openItems, itemsAll]
  neat := List.forall_mem_cons.2 ⟨neat_nil, h.neat⟩
  ready := by simp [lists]

theorem Amid.close {top : OpenBlock} {rest : List OpenBlock} (some_open : m.opened = top :: rest)
    (closes : tag.closes = true) (named : top.name = String.ofList tag.name) {last : Nat}
    (place : last = byteLength (joined pieces ++ before ++ tag.text)) :
    Reached alternate (pieces ++ [(before, tag)])
      (({ m with offset := last, opened := rest } : Nesting).add top.close) := by
  obtain ⟨stands, items, neat⟩ := h
  rw [some_open] at stands
  have lists_eq : m.lists = top.body :: (rest.map (·.body) ++ [m.outer]) := by simp [lists, some_open]
  rw [lists_eq] at neat
  obtain ⟨body, others⟩ := List.forall_mem_cons.1 neat
  obtain ⟨parent, more, parents, added⟩ :=
    lists_add top.close ({ m with offset := last, opened := rest } : Nesting)
  have others : ∀ fs ∈ parent :: more, Neat fs := by
    rw [← parents]
    exact others
  obtain ⟨here, others⟩ := List.forall_mem_cons.1 others
  exact {
    offset := by rw [joined_last, ← place]; unfold add; split <;> rfl
    stands := by
      refine Stands.add (n := { m with offset := last, opened := rest }) top.close ?_
      cases stands with
      | @opened outside inside text opening _ _ outer opens nested same _ _ =>
          have name : tag.name = opening.name := by
            have names := congrArg String.toList (named.symm.trans same)
            rwa [String.toList_ofList, String.toList_ofList] at names
          have block : Nested alternate (tags ((text, opening) :: inside ++ [(before, tag)])) := by
            rw [tags_append]
            exact .block opens closes name nested .nil
          have whole := outer.append block
          rwa [← List.append_assoc] at whole
    items := by
      rw [items_add, items_last, ← items, tagItem, if_neg (not_opens_of_closes closes), ← named]
      simp [Nesting.items, some_open, openItems, OpenBlock.close, Fragment.items]
    neat := by
      rw [added]
      refine List.forall_mem_cons.2 ⟨here.cons body.reverse fun g _ both => ?_, others⟩
      exact Bool.false_ne_true both.1
    ready := by
      rw [added]
      rintro fs ⟨⟩ f ⟨⟩
      rfl }

end Steps

/-- A tag leads to the state behind it, or is the first one that breaks the rule. -/
theorem step_reached {pieces : Pieces} {before : List Char} {tag : BlockTag}
    (h : Reached alternate pieces n) (inside : joined pieces ++ before ++ tag.text <+: source.text.toList) :
    match n.step source alternate (before, tag) with
    | .ok n' => Reached alternate (pieces ++ [(before, tag)]) n'
    | .error e => left? alternate [] (tags pieces ++ [tag]) = none ∧
        e.span.Covers source (joined pieces ++ before) tag.text := by
  have amid := h.addText before
  have place := Source.covers_span inside
  rw [byteLength_append (joined pieces) before, ← h.offset] at place
  have names := amid.stands.left?
  have first : n.offset + byteLength before = byteLength (joined pieces ++ before) := by
    rw [byteLength_append, h.offset]
  have last : n.offset + byteLength before + byteLength tag.text =
      byteLength (joined pieces ++ before ++ tag.text) := by
    rw [first, ← byteLength_append]
  simp only [step]
  by_cases sigil : (tag.sigil == '#' || tag.sigil == '^' && alternate) = true
  · rw [if_pos sigil]
    exact amid.open sigil first
  · have opens : ¬tag.opens alternate = true := sigil
    rw [if_neg sigil]
    by_cases slash : (tag.sigil == '/') = true
    · have closes : tag.closes = true := slash
      rw [if_pos slash]
      cases some_open : (n.addText before).opened with
      | nil =>
          refine ⟨?_, place⟩
          rw [left?_append, names, some_open, Option.bind_some]
          exact left?_unopened closes
      | cons top rest =>
          by_cases named : (top.name == String.ofList tag.name) = true
          · simp only [if_pos named]
            exact amid.close some_open closes (beq_iff_eq.1 named) last
          · simp only [if_neg named]
            refine ⟨?_, rfl, place.inside, place.start, place.stop⟩
            have other : ¬top.name.toList = tag.name := by
              rintro same
              exact named (beq_iff_eq.2 (by rw [← same, String.ofList_toList]))
            rw [left?_append, names, some_open, Option.bind_some, List.map_cons, left?_closes closes,
              if_neg other]
    · have closes : ¬tag.closes = true := slash
      rw [if_neg slash]
      refine ⟨?_, place⟩
      rw [left?_append, names, Option.bind_some, left?_unexpected opens closes]

/-! ## The run -/

/-- The first tag behind which nothing well nested can follow, with the span on it. -/
def RefusedAt (source : Source) (alternate : Bool) (pieces : Pieces) (span : Span) : Prop :=
  ∃ front before tag back, pieces = front ++ (before, tag) :: back ∧ Viable alternate (tags front) ∧
    ¬Viable alternate (tags front ++ [tag]) ∧ span.Covers source (joined front ++ before) tag.text

/-- A run over pieces leads to the state behind them, or is refused at the first tag that breaks
the rule. -/
theorem foldlM_reached {front back : Pieces} (h : Reached alternate front n)
    (inside : joined (front ++ back) <+: source.text.toList) :
    match back.foldlM (step source alternate) n with
    | .ok n' => Reached alternate (front ++ back) n'
    | .error e => RefusedAt source alternate (front ++ back) e.span := by
  induction back generalizing front n with
  | nil =>
      rw [List.append_nil]
      exact h
  | cons piece back ih =>
      obtain ⟨before, tag⟩ := piece
      have whole : front ++ (before, tag) :: back = front ++ [(before, tag)] ++ back := by simp
      have begins : joined front ++ before ++ tag.text <+: source.text.toList := by
        rw [whole, joined_append, joined_last] at inside
        exact (List.prefix_append _ _).trans inside
      have here := step_reached h begins
      rw [List.foldlM_cons]
      cases stepped : n.step source alternate (before, tag) with
      | ok n' =>
          rw [stepped] at here
          rw [whole] at inside ⊢
          exact ih here inside
      | error e =>
          rw [stepped] at here
          refine ⟨front, before, tag, back, rfl, h.stands.viable, fun viable => ?_, here.2⟩
          obtain ⟨names, found⟩ := viable.left?
          rw [here.1] at found
          cases found

end Nesting

/-! ## Splitting -/

namespace Fragment

/-- The pieces of a source: its tags by the pattern, each with the text before it. -/
def pieces (source : Source) : Pieces := (tiles BlockTag.pattern.first? source.text.toList).1

/-- The text behind the last tag. -/
def trailing (source : Source) : List Char := (tiles BlockTag.pattern.first? source.text.toList).2

/-- The innermost tag whose block is still open behind all tags, with the span on it. -/
def UnclosedAt (source : Source) (alternate : Bool) (span : Span) : Prop :=
  ∃ front before tag back, pieces source = front ++ (before, tag) :: back ∧
    tag.opens alternate = true ∧ Nested alternate (tags back) ∧ Viable alternate (tags (pieces source)) ∧
      span.Covers source (joined front ++ before) tag.text

theorem joined_pieces (source : Source) : joined (pieces source) ++ trailing source = source.text.toList := by
  have reader : BlockTag.pattern.first? = BlockTag.at? := funext pattern_first?
  rw [pieces, trailing, reader]
  exact tiles_append reads_at? source.text.toList

theorem not_nested_of_refusedAt {source : Source} {alternate : Bool} {pieces : Pieces} {span : Span}
    (h : Nesting.RefusedAt source alternate pieces span) : ¬Nested alternate (tags pieces) := by
  obtain ⟨front, before, tag, back, rfl, -, refused, -⟩ := h
  intro nested
  refine refused ⟨tags back, ?_⟩
  rw [tags_append] at nested
  simpa [tags] using nested

/-- The end of the text leaves the fragments of the text, or is refused at the innermost open tag. -/
theorem finish_spec {source : Source} {alternate : Bool} {n : Nesting}
    (h : Nesting.Reached alternate (pieces source) n) :
    match n.finish source (trailing source) with
    | .ok fragments => Nested alternate (tags (pieces source)) ∧
        itemsAll fragments = (pieces source).items alternate ++ textItems (trailing source) ∧
          Neat fragments
    | .error e => ¬Nested alternate (tags (pieces source)) ∧ UnclosedAt source alternate e.span := by
  have stands := h.stands
  have viable := h.stands.viable
  have names := h.stands.left?
  have whole := joined_pieces source
  unfold Nesting.finish
  cases some_open : n.opened with
  | nil =>
      rw [some_open] at stands
      have amid := h.addText (trailing source)
      have closed : (n.addText (trailing source)).opened = [] := by
        unfold Nesting.addText Nesting.add
        split
        · exact some_open
        · rw [some_open]
      generalize n.addText (trailing source) = m at amid closed
      have items := amid.items
      have neat := amid.neat m.outer (by simp [Nesting.lists])
      rw [Nesting.items, closed, Nesting.openItems, List.append_nil] at items
      exact ⟨stands.nested_of_nil, items, neat.reverse⟩
  | cons top rest =>
      rw [some_open] at stands names
      refine ⟨fun nested => ?_, ?_⟩
      · rw [nested.left?_eq []] at names
        cases names
      · obtain ⟨front, before, tag, back, there, opens, inside, start, stop⟩ := stands.exists_opening
        have begins : joined front ++ before ++ tag.text <+: source.text.toList := by
          rw [← whole, there, joined_append]
          exact ⟨joined back ++ trailing source, by simp [joined]⟩
        have place := Source.covers_span begins
        rw [← start, ← stop] at place
        exact ⟨front, before, tag, back, there, opens, inside, viable, place⟩

/-- A text is split into fragments exactly if its tags are well nested, and else refused at a tag. -/
theorem split_spec (source : Source) (alternate : Bool) :
    match split source alternate with
    | .ok fragments => Nested alternate (tags (pieces source)) ∧
        itemsAll fragments = (pieces source).items alternate ++ textItems (trailing source) ∧
          Neat fragments
    | .error e => ¬Nested alternate (tags (pieces source)) ∧
        (Nesting.RefusedAt source alternate (pieces source) e.span ∨ UnclosedAt source alternate e.span) := by
  have reader : BlockTag.pattern.first? = BlockTag.at? := funext pattern_first?
  have form : split source alternate =
      ((pieces source).foldlM (Nesting.step source alternate) Nesting.start).bind
        (Nesting.finish source (trailing source)) := by
    rw [pieces, trailing, reader]
    rfl
  have inside : joined ([] ++ pieces source) <+: source.text.toList := ⟨trailing source, joined_pieces source⟩
  have run := Nesting.foldlM_reached (Nesting.reached_start alternate) inside
  rw [form]
  cases ran : (pieces source).foldlM (Nesting.step source alternate) Nesting.start with
  | ok n =>
      rw [ran] at run
      have finished := finish_spec run
      rw [Except.bind]
      split at finished
      · exact finished
      · exact ⟨finished.1, .inr finished.2⟩
  | error e =>
      rw [ran] at run
      exact ⟨not_nested_of_refusedAt run, .inl run⟩

end Fragment

end Stencil
