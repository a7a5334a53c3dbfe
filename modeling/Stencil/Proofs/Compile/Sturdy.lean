import Stencil.Proofs.Compile.Static
import Stencil.Proofs.Markup.Abbreviation
import Stencil.Proofs.Markup.Element

/-! # Sturdy sources

The markup of a template is read again before the template can be used. What must hold of a source
so that nothing gets lost on the way is said here on the source alone: besides being printable, it is
sturdy. The plan of a printable and sturdy tree is read back from its markup as it was written, and
so are the plans of all blocks in it.
-/

namespace Stencil

open Markup NodeTree Compile

/-! ## Sources -/

namespace Markup.NodeTree

variable {ι : Type}

/-- Nodes may become the content of an element: none of them ends the element, and a text at their
beginning is not taken for the line feed behind an open tag. -/
structure Enters (name : String) (ts : List (NodeTree ι)) : Prop where
  unclosed : ∀ t ∈ ts, ∀ tag entries, t.data = .element tag entries →
    (TagRules.of name).isClosedBy tag = false
  newline : (TagRules.of name).skipsNewline = true → ∀ t ∈ ts.head?, ∀ value,
    t.data = .text value → ∀ cs, value.toList ≠ '\n' :: cs

/-- What an element must be like, besides being printable, to be found again when its template is
read from its markup. -/
structure ElementSturdy (name : String) (attributes : List (String × Value))
    (children : List (NodeTree ι)) : Prop where
  /-- No marker stands in the source. -/
  unmarked : hasMarker Marker.host attributes = false
  /-- A block says what it repeats. -/
  repeats : ∀ identity, blockOf? attributes = some identity →
    (Iteration.parse? identity).isSome = true
  /-- Where no element can be read no text is split, so that its directives need the element. -/
  whole : (TagRules.of name).content ≠ .parsable → ∀ label value,
    children = [node label (.text value) []] →
      Static.holds value = false ∨ blockOf? attributes = none ∧ Static.isDirective value = true
  /-- A block that is all that the element holds, blanks apart, leaves its content to the element. -/
  promoted : blockOf? attributes = none → ∀ front label tag entries ts back,
    children = front ++ node label (.element tag entries) ts :: back →
    (∀ t ∈ front ++ back, ∃ value, t.data = .text value ∧ isBlankText value = true) →
    blockOf? entries ≠ none → Enters name ts

/-- An element without rules is sturdy if only what its own markers say is right. -/
theorem ElementSturdy.ordinary {name : String} {attributes : List (String × Value)}
    {children : List (NodeTree ι)} (rules : TagRules.of name = {})
    (unmarked : hasMarker Marker.host attributes = false)
    (repeats : ∀ identity, blockOf? attributes = some identity →
      (Iteration.parse? identity).isSome = true) : ElementSturdy name attributes children where
  unmarked := unmarked
  repeats := repeats
  whole other := (other (by rw [rules])).elim
  promoted _ _ _ _ _ _ _ _ _ _ := {
    unclosed := fun _ _ _ _ _ => by rw [rules]; rfl
    newline := by rw [rules]; nofun }

mutual

/-- All elements of a tree are so, and no other text holds the characters of a host marker. -/
def Sturdy : NodeTree ι → Prop
  | node _ data children =>
      match data with
      | .element name attributes => ElementSturdy name attributes children ∧ SturdyAll children
      | data => Unmarked data

def SturdyAll : List (NodeTree ι) → Prop
  | [] => True
  | t :: ts => Sturdy t ∧ SturdyAll ts

end

theorem SturdyAll.of_mem {t : NodeTree ι} {ts : List (NodeTree ι)} (h : SturdyAll ts) (mem : t ∈ ts) :
    t.Sturdy := by
  induction ts with
  | nil => cases mem
  | cons u us ih =>
      rcases List.mem_cons.1 mem with rfl | mem
      · exact h.1
      · exact ih h.2 mem

/-! ## Shapes -/

section

variable {ι : Type} {name : String} {attributes : List (String × Value)} {children : List (NodeTree ι)}

theorem exists_of_map_shape_text {label : Unit} {value : String}
    (h : children.map shape = [node label (.text value) []]) :
    ∃ label, children = [node label (.text value) []] := by
  obtain ⟨t, rfl, same⟩ := List.map_eq_singleton_iff.1 h
  obtain ⟨id, data, below⟩ := t
  simp only [shape_node, NodeTree.node.injEq, List.map_eq_nil_iff] at same
  obtain ⟨-, rfl, rfl⟩ := same
  exact ⟨id, rfl⟩

theorem ElementPrintable.of_shape (h : ElementPrintable name attributes (children.map shape)) :
    ElementPrintable name attributes children where
  plain := h.plain
  distinct := h.distinct
  plains := h.plains
  strings := h.strings
  parted := by
    have parted := (List.isChain_map shape).1 h.parted
    exact parted.imp fun t u apart => by simpa [isText] using apart
  void void := List.map_eq_nil_iff.1 (h.void void)
  unclosed t mem tag entries same :=
    h.unclosed t.shape (List.mem_map_of_mem mem) tag entries (by rwa [data_shape])
  raw model := by
    refine (h.raw model).imp List.map_eq_nil_iff.1 ?_
    rintro ⟨label, value, same, closing⟩
    obtain ⟨label, rfl⟩ := exists_of_map_shape_text same
    exact ⟨label, value, rfl, closing⟩
  escapable model := by
    refine (h.escapable model).imp List.map_eq_nil_iff.1 ?_
    rintro ⟨label, value, same⟩
    obtain ⟨label, rfl⟩ := exists_of_map_shape_text same
    exact ⟨label, value, rfl⟩
  newline skips t ts value same text :=
    h.newline skips t.shape (ts.map shape) value (by rw [same, List.map_cons]) (by rwa [data_shape])

theorem Enters.of_shape (h : Enters name (children.map shape)) : Enters name children where
  unclosed t mem tag entries same :=
    h.unclosed t.shape (List.mem_map_of_mem mem) tag entries (by rwa [data_shape])
  newline skips t first value same := by
    refine h.newline skips t.shape ?_ value (by rwa [data_shape])
    rw [List.head?_map]
    exact Option.mem_map_of_mem shape first

theorem ElementSturdy.of_shape (h : ElementSturdy name attributes (children.map shape)) :
    ElementSturdy name attributes children where
  unmarked := h.unmarked
  repeats := h.repeats
  whole model label value same :=
    h.whole model () value (by rw [same]; rfl)
  promoted unblocked front label tag entries ts back same blanks block := by
    refine (h.promoted unblocked (front.map shape) () tag entries (ts.map shape) (back.map shape) ?_ ?_
      block).of_shape
    · rw [same, List.map_append, List.map_cons, shape_node]
    · intro t mem
      rw [← List.map_append] at mem
      obtain ⟨u, listed, rfl⟩ := List.mem_map.1 mem
      rw [data_shape]
      exact blanks u listed

end

mutual

theorem printable_of_shape {ι : Type} : (t : NodeTree ι) → t.shape.Printable → t.Printable
  | .node _ data children, h => by
      rw [shape_node] at h
      cases data with
      | element name attributes => exact ⟨h.1.of_shape, printableAll_of_shape children h.2⟩
      | text | comment => exact ⟨h.1, List.map_eq_nil_iff.1 h.2⟩
      | doctype => exact ⟨h.1, h.2.1, List.map_eq_nil_iff.1 h.2.2⟩
      | fragment => exact h

theorem printableAll_of_shape {ι : Type} : (ts : List (NodeTree ι)) → PrintableAll (ts.map shape) →
    PrintableAll ts
  | [], _ => trivial
  | t :: ts, h => ⟨printable_of_shape t h.1, printableAll_of_shape ts h.2⟩

end

mutual

theorem sturdy_of_shape {ι : Type} : (t : NodeTree ι) → t.shape.Sturdy → t.Sturdy
  | .node _ data children, h => by
      rw [shape_node] at h
      cases data with
      | element name attributes => exact ⟨h.1.of_shape, sturdyAll_of_shape children h.2⟩
      | text | comment | doctype | fragment => exact h

theorem sturdyAll_of_shape {ι : Type} : (ts : List (NodeTree ι)) → SturdyAll (ts.map shape) → SturdyAll ts
  | [], _ => trivial
  | t :: ts, h => ⟨sturdy_of_shape t h.1, sturdyAll_of_shape ts h.2⟩

end

end Markup.NodeTree

/-- The elements that stand for directives can be read wherever they stand. -/
structure Config.Neutral (config : Config) : Prop where
  plain : PlainName (Text.lower config.wrapperTag).toList
  open_ : ∀ name, (TagRules.of name).isClosedBy (Text.lower config.wrapperTag) = false

theorem Config.neutral_default : Neutral {} where
  plain := .of_all rfl (c := 's') rfl (by decide)
  open_ := TagRules.of_induct (P := fun _ rules => rules.isClosedBy (Text.lower "span") = false)
    (by decide) fun _ => rfl

/-! ## Pieces of texts -/

namespace Markup.NodeTree

variable {t : NodeTree Unit} {us vs : List (NodeTree Unit)}

theorem Parted.cons_of_not_text (other : t.isText = false) (h : Parted us) : Parted (t :: us) := by
  refine List.isChain_cons.2 ⟨fun u _ both => ?_, h⟩
  rw [other] at both
  cases both.1

theorem Parted.cons_text_of_head (h : Parted us) (other : ∀ u ∈ us.head?, u.isText = false) :
    Parted (t :: us) := by
  refine List.isChain_cons.2 ⟨fun u first both => ?_, h⟩
  rw [other u first] at both
  cases both.2

theorem exists_of_isText_node (h : t.isText = true) : ∃ value, t.data = .text value := by
  obtain ⟨label, data, children⟩ := t
  cases data with
  | text value => exact ⟨value, rfl⟩
  | _ => cases h

theorem printableAll_append (h : PrintableAll us) (k : PrintableAll vs) : PrintableAll (us ++ vs) := by
  induction us with
  | nil => exact k
  | cons u us ih => exact ⟨h.1, ih h.2⟩

theorem eachAll_append {P : NodeData → Prop} (h : EachAll P us) (k : EachAll P vs) :
    EachAll P (us ++ vs) := by
  induction us with
  | nil => exact k
  | cons u us ih => exact ⟨h.1, ih h.2⟩

end Markup.NodeTree

/-- Trees that have come from nodes of a source side by side: no two neighbours are texts, the tags are
those of the nodes or `wrapper`, and a text at either end comes from a text at that end. -/
structure Resembles {ι : Type} (wrapper : String) (ts : List (NodeTree ι)) (us : List (NodeTree Unit)) :
    Prop where
  parted : Parted us
  tags : ∀ u ∈ us, ∀ tag entries, u.data = .element tag entries →
    tag = wrapper ∨ ∃ t ∈ ts, ∃ old, t.data = .element tag old
  first : ∀ u ∈ us.head?, ∀ value, u.data = .text value →
    ∃ t ∈ ts.head?, ∃ whole, t.data = .text whole ∧ value.toList <+: whole.toList
  last : ∀ u ∈ us.getLast?, u.isText = true → ∃ t ∈ ts.getLast?, t.isText = true
  nothing : us = [] ↔ ts = []

namespace Resembles

variable {ι : Type} {wrapper : String} {t : NodeTree ι} {ts : List (NodeTree ι)}
  {us vs : List (NodeTree Unit)}

theorem nil : Resembles wrapper ([] : List (NodeTree ι)) [] where
  parted := .nil
  tags := nofun
  first := nofun
  last := nofun
  nothing := ⟨fun _ => rfl, fun _ => rfl⟩

/-- A node that is no text and stays, whatever becomes of its content. -/
theorem single {u : NodeTree Unit} (other : u.isText = false)
    (tag : ∀ tag entries, u.data = .element tag entries → ∃ old, t.data = .element tag old) :
    Resembles wrapper [t] [u] where
  parted := .singleton u
  tags := List.forall_mem_singleton.2 fun name entries same =>
    .inr ⟨t, List.mem_singleton_self t, tag name entries same⟩
  first := by
    rintro _ ⟨⟩ value same
    simp [isText, same] at other
  last := by
    rintro _ ⟨⟩ text
    cases other.symm.trans text
  nothing := by simp

theorem append (h : Resembles wrapper [t] us) (k : Resembles wrapper ts vs) (parted : Parted (t :: ts)) :
    Resembles wrapper (t :: ts) (us ++ vs) where
  parted := by
    refine List.isChain_append.2 ⟨h.parted, k.parted, fun u last v first both => ?_⟩
    obtain ⟨s, here, text⟩ := h.last u last both.1
    obtain rfl : t = s := by simpa using here
    obtain ⟨value, same⟩ := exists_of_isText_node both.2
    obtain ⟨s, next, whole, same', -⟩ := k.first v first value same
    exact parted.rel_head? next ⟨text, by rw [isText, same']⟩
  tags u mem tag entries same := by
    rcases List.mem_append.1 mem with mem | mem
    · refine (h.tags u mem tag entries same).imp_right ?_
      rintro ⟨s, here, old⟩
      exact ⟨s, List.mem_singleton.1 here ▸ List.mem_cons_self, old⟩
    · refine (k.tags u mem tag entries same).imp_right ?_
      rintro ⟨s, there, old⟩
      exact ⟨s, List.mem_cons_of_mem t there, old⟩
  first u mem := by
    cases us with
    | nil => exact absurd (h.nothing.1 rfl) (by simp)
    | cons u' us => exact h.first u mem
  last u mem text := by
    rw [List.getLast?_append] at mem
    cases vs with
    | nil =>
        obtain rfl := k.nothing.1 rfl
        exact h.last u mem text
    | cons v vs =>
        rw [List.getLast?_cons] at mem
        obtain ⟨s, there, text'⟩ := k.last u (by rwa [List.getLast?_cons]) text
        refine ⟨s, ?_, text'⟩
        cases ts with
        | nil => cases there
        | cons s' ts => rwa [List.getLast?_cons_cons]
  nothing := by
    have filled : us ≠ [] := fun empty => absurd (h.nothing.1 empty) (by simp)
    simp [filled]

end Resembles

/-! ## Texts -/

namespace Static

variable {config : Config} {value : String}

theorem isText_wrapper : (wrapper config).isText = false := rfl

theorem printable_wrapper (neutral : config.Neutral) : (wrapper config).Printable :=
  ⟨.childless neutral.plain (by simp) (List.forall_mem_singleton.2 PlainName.host)
    (List.forall_mem_singleton.2 ⟨_, rfl⟩), trivial⟩

/-- A piece of text before trees that do not begin with one. -/
theorem parted_literal {us : List (NodeTree Unit)} (piece : List Char) (h : Parted us)
    (other : ∀ u ∈ us.head?, u.isText = false) : Parted (literal piece ++ us) := by
  unfold literal
  split
  · exact h
  · exact h.cons_text_of_head other

theorem printable_literal (piece : List Char) : PrintableAll (literal piece) := by
  unfold literal
  split
  · trivial
  · rename_i filled
    refine ⟨⟨?_, rfl⟩, trivial⟩
    simpa [String.ofList_eq_empty_iff] using filled

theorem unmarked_literal {piece : List Char} (out : ¬valuedMarker <:+: piece) :
    EachAll NodeTree.Unmarked (literal piece) := by
  unfold literal
  split
  · trivial
  · exact ⟨⟨by simpa [NodeTree.Unmarked] using out, trivial⟩, trivial⟩

/-- The pieces of a text with a wrapper behind each. -/
def run (config : Config) (pieces : List (List Char)) : List (NodeTree Unit) :=
  pieces.flatMap fun piece => literal piece ++ [wrapper config]

theorem run_cons (piece : List Char) (pieces : List (List Char)) (us : List (NodeTree Unit)) :
    run config (piece :: pieces) ++ us = literal piece ++ wrapper config :: (run config pieces ++ us) := by
  simp [run]

theorem parted_run (pieces : List (List Char)) (piece : List Char) :
    Parted (run config pieces ++ literal piece) := by
  induction pieces with
  | nil =>
      have alone : Parted (literal piece ++ []) := parted_literal piece .nil nofun
      rwa [List.append_nil] at alone
  | cons first pieces ih =>
      rw [run_cons]
      exact parted_literal first (ih.cons_of_not_text isText_wrapper) (by rintro _ ⟨⟩; rfl)

theorem printable_run (neutral : config.Neutral) (pieces : List (List Char)) (piece : List Char) :
    PrintableAll (run config pieces ++ literal piece) := by
  induction pieces with
  | nil => exact printable_literal piece
  | cons first pieces ih =>
      rw [run_cons]
      exact printableAll_append (printable_literal first) ⟨printable_wrapper neutral, ih⟩

theorem unmarked_run {pieces : List (List Char)} {piece : List Char}
    (out : ∀ cs ∈ piece :: pieces, ¬valuedMarker <:+: cs) :
    EachAll NodeTree.Unmarked (run config pieces ++ literal piece) := by
  induction pieces with
  | nil => exact unmarked_literal (out piece (by simp))
  | cons first pieces ih =>
      rw [run_cons]
      refine eachAll_append (unmarked_literal (out first (by simp))) ⟨⟨trivial, trivial⟩, ih ?_⟩
      intro cs mem
      rcases List.mem_cons.1 mem with rfl | mem
      · exact out cs (by simp)
      · exact out cs (by simp [mem])

theorem data_of_mem_run {pieces : List (List Char)} {piece : List Char} {u : NodeTree Unit}
    (mem : u ∈ run config pieces ++ literal piece) : u.isText = true ∨ u = wrapper config := by
  have texts : ∀ {cs}, u ∈ literal cs → u.isText = true := by
    intro cs mem
    unfold literal at mem
    split at mem
    · cases mem
    · rw [List.mem_singleton.1 mem]
      rfl
  rcases List.mem_append.1 mem with mem | mem
  · obtain ⟨cs, -, mem⟩ := List.mem_flatMap.1 mem
    exact (List.mem_append.1 mem).imp texts List.mem_singleton.1
  · exact .inl (texts mem)

/-- A text at the beginning is the first piece. -/
theorem head_run {pieces : List (List Char)} {piece : List Char} {u : NodeTree Unit} {text : String}
    (first : u ∈ (run config pieces ++ literal piece).head?) (same : u.data = .text text) :
    (pieces ++ [piece]).head? = some text.toList := by
  have alone : ∀ {cs us}, u ∈ (literal cs ++ us).head? → (∀ u ∈ us.head?, u.isText = false) →
      cs = text.toList := by
    intro cs us first other
    unfold literal at first
    split at first
    · have plain := other u first
      simp [isText, same] at plain
    · cases first
      cases same
      exact String.toList_ofList.symm
  cases pieces with
  | nil =>
      rw [show run config [] ++ literal piece = literal piece ++ [] by simp [run]] at first
      rw [alone first (by simp)]
      rfl
  | cons cs pieces =>
      rw [run_cons] at first
      rw [alone first (by rintro _ ⟨⟩; rfl)]
      rfl

theorem ofText_eq (config : Config) (there : holds value = true) :
    ofText config value = run config ((Text.tiles Mustache.at? value.toList).1.map Prod.fst) ++
      literal (Text.tiles Mustache.at? value.toList).2 := by
  rw [ofText, if_pos there, run, List.flatMap_map]

/-- The pieces between the directives of a text stand in the text, and the first at its beginning. -/
theorem pieces_within (value : String) :
    (∀ cs ∈ (Text.tiles Mustache.at? value.toList).2 ::
        (Text.tiles Mustache.at? value.toList).1.map Prod.fst, cs <:+: value.toList) ∧
      ∀ cs ∈ ((Text.tiles Mustache.at? value.toList).1.map Prod.fst ++
        [(Text.tiles Mustache.at? value.toList).2]).head?, cs <+: value.toList := by
  have whole := Text.tiles_append Mustache.reads_at? value.toList
  generalize Text.tiles Mustache.at? value.toList = parts at whole
  obtain ⟨tiles, trailing⟩ := parts
  refine ⟨List.forall_mem_cons.2 ⟨⟨_, [], by rw [List.append_nil]; exact whole⟩, ?_⟩, ?_⟩
  · intro cs mem
    obtain ⟨⟨before, m⟩, listed, rfl⟩ := List.mem_map.1 mem
    obtain ⟨front, back, rfl⟩ := List.append_of_mem listed
    rw [List.flatMap_append, List.flatMap_cons] at whole
    exact ⟨_, _, by simpa only [List.append_assoc] using whole⟩
  · cases tiles with
    | nil =>
        rintro _ ⟨⟩
        exact ⟨[], by simpa using whole⟩
    | cons tile tiles =>
        rintro _ ⟨⟩
        rw [List.flatMap_cons, List.append_assoc, List.append_assoc] at whole
        exact ⟨_, whole⟩

theorem resembles_ofText {ι : Type} (label : ι) (config : Config) (value : String) :
    Resembles (Text.lower config.wrapperTag) [node label (.text value) []] (ofText config value) := by
  cases there : holds value with
  | false =>
      rw [ofText, there]
      exact {
        parted := .singleton _
        tags := by
          intro u mem tag entries same
          cases List.mem_singleton.1 mem
          cases same
        first := by
          rintro _ ⟨⟩ text ⟨⟩
          exact ⟨_, rfl, value, rfl, List.prefix_rfl⟩
        last := fun _ _ _ => ⟨_, rfl, rfl⟩
        nothing := by simp }
  | true =>
      rw [ofText_eq config there]
      obtain ⟨-, first⟩ := pieces_within value
      exact {
        parted := parted_run _ _
        tags := by
          intro u mem tag entries same
          rcases data_of_mem_run mem with text | rfl
          · simp [isText, same] at text
          · cases same
            exact .inl rfl
        first := fun u mem text same => ⟨_, rfl, value, rfl, first _ (head_run mem same)⟩
        last := fun _ _ _ => ⟨_, rfl, rfl⟩
        nothing := by
          obtain ⟨tile, tiles, same⟩ := List.exists_cons_of_ne_nil (tiles_ne_nil there)
          rw [same, List.map_cons, run_cons]
          simp }

theorem printable_ofText (neutral : config.Neutral) (filled : value ≠ "") :
    PrintableAll (ofText config value) := by
  cases there : holds value with
  | false =>
      rw [ofText, there]
      exact ⟨⟨filled, rfl⟩, trivial⟩
  | true =>
      rw [ofText_eq config there]
      exact printable_run neutral _ _

theorem unmarked_ofText (out : ¬valuedMarker <:+: value.toList) :
    EachAll NodeTree.Unmarked (ofText config value) := by
  cases there : holds value with
  | false =>
      rw [ofText, there]
      exact ⟨⟨out, trivial⟩, trivial⟩
  | true =>
      rw [ofText_eq config there]
      exact unmarked_run fun cs mem inside => out (inside.trans ((pieces_within value).1 cs mem))

end Static

/-! ## Elements -/

namespace Plan

variable {s : Settings} {name : String} {attributes kept : List (String × Value)} {slot : Slot}

/-- The kind of a binding is one that the library knows. -/
theorem isBuiltIn_binding {source : Source} {o : Occurrence} {attr : Option String} {b : Binding}
    (h : binding source o attr = .ok b) : b.kind.isBuiltIn = true := by
  have keyed : ∀ {kind body directive}, o.keyed kind body = .ok directive → directive.kind = kind := by
    intro kind body directive h
    unfold Occurrence.keyed at h
    dsimp only at h
    split at h
    · cases h
    · cases h
      rfl
  have classified : ∀ directive, o.classify = .ok directive → directive.kind.isBuiltIn = true := by
    intro directive h
    unfold Occurrence.classify at h
    split at h
    · rw [keyed h]
      rfl
    · rw [keyed h]
      rfl
    · split at h
      · cases h
        rfl
      · cases h
    · rw [keyed h]
      split <;> rfl
  unfold binding Occurrence.directive at h
  cases known : o.classify with
  | error e => simp [known, Except.mapError, Except.map] at h
  | ok directive =>
      simp only [known, Except.mapError, Except.map, Except.ok.injEq] at h
      subst h
      exact classified directive known

/-- The slots of the hosts in trees hold bindings of known kinds only. -/
def BuiltIn (ts : List (NodeTree Slot)) : Prop :=
  ∀ slot ∈ (hostsAll ts).map label, ∀ b, .binding b ∈ slot → b.kind.isBuiltIn = true

/-- What is left of attributes are those that were there, some of them empty. -/
theorem ofAttributes_left (h : ofAttributes s attributes = .ok (kept, slot)) :
    (kept.map Prod.fst = attributes.map Prod.fst) ∧
      (∀ entry ∈ kept, entry ∈ attributes ∨ entry.2 = .string "") ∧
      ∀ b, .binding b ∈ slot → b.kind.isBuiltIn = true := by
  induction attributes generalizing kept slot with
  | nil =>
      cases h
      exact ⟨rfl, nofun, nofun⟩
  | cons entry more ih =>
      obtain ⟨name, value⟩ := entry
      rw [ofAttributes] at h
      obtain ⟨⟨left, first⟩, known, h⟩ := bind_eq_ok.1 h
      obtain ⟨⟨others, rest⟩, later, h⟩ := bind_eq_ok.1 h
      cases h
      obtain ⟨names, entries, kinds⟩ := ih later
      have own : (left = value ∨ left = .string "") ∧
          ∀ b, .binding b ∈ first → b.kind.isBuiltIn = true := by
        unfold ofAttribute at known
        split at known
        · cases known
          exact ⟨.inl rfl, nofun⟩
        · obtain ⟨found, -, known⟩ := bind_eq_ok.1 known
          cases found with
          | none =>
              cases known
              exact ⟨.inl rfl, nofun⟩
          | some o =>
              obtain ⟨b, bound, known⟩ := bind_eq_ok.1 known
              cases known
              refine ⟨.inr rfl, fun b' mem => ?_⟩
              cases List.mem_singleton.1 mem
              exact isBuiltIn_binding bound
      refine ⟨by rw [List.map_cons, names, List.map_cons], fun entry mem => ?_, fun b mem => ?_⟩
      · rcases List.mem_cons.1 mem with rfl | mem
        · rcases own.1 with rfl | rfl
          · exact .inl List.mem_cons_self
          · exact .inr rfl
        · exact (entries entry mem).imp_left (List.mem_cons_of_mem _)
      · exact (List.mem_append.1 mem).elim (own.2 b) (kinds b)

end Plan

/-- Attributes that can be read back. -/
structure EntriesPrintable (entries : List (String × Value)) : Prop where
  distinct : (entries.map Prod.fst).Nodup
  plains : ∀ entry ∈ entries, PlainName entry.1.toList
  strings : ∀ entry ∈ entries, ∃ value, entry.2 = .string value

namespace EntriesPrintable

variable {entries : List (String × Value)}

theorem nil : EntriesPrintable [] := ⟨.nil, nofun, nofun⟩

theorem filter (h : EntriesPrintable entries) (p : String × Value → Bool) :
    EntriesPrintable (entries.filter p) where
  distinct := h.distinct.sublist (List.filter_sublist.map _)
  plains entry mem := h.plains entry (List.mem_of_mem_filter mem)
  strings entry mem := h.strings entry (List.mem_of_mem_filter mem)

/-- The marker of a host joins the attributes. -/
theorem mark (h : EntriesPrintable entries) :
    EntriesPrintable (Value.putField Marker.host (.string "") entries) where
  distinct := Document.nodup_putField h.distinct
  plains entry mem := by
    rcases Plan.mem_putField mem with rfl | mem
    · exact PlainName.host
    · exact h.plains entry mem
  strings entry mem := by
    rcases Plan.mem_putField mem with rfl | mem
    · exact ⟨_, rfl⟩
    · exact h.strings entry mem

/-- What is left of the attributes of a source. -/
theorem left {s : Settings} {name : String} {attributes kept : List (String × Value)} {slot : Slot}
    {children : List (NodeTree NodeId)} (h : ElementPrintable name attributes children)
    (known : Plan.ofAttributes s attributes = .ok (kept, slot)) : EntriesPrintable kept := by
  obtain ⟨names, entries, -⟩ := Plan.ofAttributes_left known
  refine ⟨names ▸ h.distinct, fun entry mem => ?_, fun entry mem => ?_⟩
  · obtain ⟨old, listed, same⟩ := List.mem_map.1 (names ▸ List.mem_map_of_mem mem)
    exact same ▸ h.plains old listed
  · rcases entries entry mem with listed | empty
    · exact h.strings entry listed
    · exact ⟨_, empty⟩

end EntriesPrintable

/-- An element whose content has come from nodes that may enter it is read back. -/
theorem Resembles.elementPrintable {ι : Type} {wrapper name : String} {ts : List (NodeTree ι)}
    {us : List (NodeTree Unit)} {entries : List (String × Value)} (like : Resembles wrapper ts us)
    (plain : PlainName name.toList) (e : EntriesPrintable entries) (enters : Enters name ts)
    (open_ : (TagRules.of name).isClosedBy wrapper = false)
    (void : (TagRules.of name).isVoid = true → us = [])
    (whole : (TagRules.of name).content ≠ .parsable → us = [] ∨
      ∃ label value, us = [node label (.text value) []] ∧
        ((TagRules.of name).content = .raw → NoClosing name.toList value.toList)) :
    ElementPrintable name entries us where
  plain := plain
  distinct := e.distinct
  plains := e.plains
  strings := e.strings
  parted := like.parted
  void := void
  unclosed u mem tag entries same := by
    rcases like.tags u mem tag entries same with rfl | ⟨t, there, old, same⟩
    · exact open_
    · exact enters.unclosed t there tag old same
  raw model := (whole (by rw [model]; nofun)).imp_right fun ⟨label, value, same, free⟩ =>
    ⟨label, value, same, free model⟩
  escapable model := (whole (by rw [model]; nofun)).imp_right fun ⟨label, value, same, _⟩ =>
    ⟨label, value, same⟩
  newline := by
    rintro skips u us value rfl text cs begins
    obtain ⟨t, there, old, same, tail, whole⟩ := like.first u rfl value text
    exact enters.newline skips t there old same (cs ++ tail) (by rw [← whole, begins, List.cons_append])

/-- The children of a printable element may become its content again. -/
theorem Markup.NodeTree.ElementPrintable.enters {ι : Type} {name : String}
    {attributes : List (String × Value)} {children : List (NodeTree ι)}
    (h : ElementPrintable name attributes children) : Enters name children where
  unclosed := h.unclosed
  newline skips t first value text cs := by
    cases children with
    | nil => cases first
    | cons t' ts =>
        cases first
        exact h.newline skips t ts value rfl text cs

end Stencil
