import Stencil.Proofs.Markup.Parsed

/-! # Neighbouring texts

Markup shows no border between two texts. Joining them changes nothing in what is printed, and
leaves trees in which no two neighbours are texts. So what has been read can be printed and read
again, and comes back with its texts joined, unless the markup hides something: a line feed that
is dropped, or a doctype that looks like a comment.
-/

namespace Stencil.Markup.NodeTree

variable {ι : Type}

/-- The tree before others. Two texts that meet become one. -/
def attach : NodeTree ι → List (NodeTree ι) → List (NodeTree ι)
  | node label (.text value) children, node _ (.text more) _ :: ts =>
      node label (.text (value ++ more)) children :: ts
  | t, ts => t :: ts

mutual

/-- The tree with neighbouring texts joined. -/
def join : NodeTree ι → NodeTree ι
  | node label data children => node label data (joinAll children)

def joinAll : List (NodeTree ι) → List (NodeTree ι)
  | [] => []
  | t :: ts => attach (join t) (joinAll ts)

end

/-! ## Printing -/

theorem escapeText_append (a b : String) : escapeText (a ++ b) = escapeText a ++ escapeText b := by
  simp [escapeText, String.toList_append, String.ofList_append]

theorem printAll_attach (raw : Bool) (t : NodeTree ι) (ts : List (NodeTree ι)) :
    printAll raw (attach t ts) = t.print raw ++ printAll raw ts := by
  unfold attach
  split
  · cases raw <;> simp [printAll, print, escapeText_append, String.append_assoc]
  · rfl

mutual

theorem print_join (raw : Bool) : (t : NodeTree ι) → t.join.print raw = t.print raw
  | node label data children => by
      cases data with
      | element name attributes =>
          have inside := printAll_joinAll (NodeData.element name attributes).isRaw children
          simp only [join, print, inside]
      | fragment => exact printAll_joinAll raw children
      | text | comment | doctype => rfl

/-- Joining is not seen in what is printed. -/
theorem printAll_joinAll (raw : Bool) : (ts : List (NodeTree ι)) →
    printAll raw (joinAll ts) = printAll raw ts
  | [] => rfl
  | t :: ts => by
      rw [joinAll, printAll_attach, print_join raw t, printAll_joinAll raw ts, printAll]

end

/-! ## Neighbours -/

theorem parted_attach {ts : List (NodeTree ι)} (h : Parted ts) (t : NodeTree ι) :
    Parted (attach t ts) := by
  unfold attach
  split
  · exact List.isChain_cons.2 (List.isChain_cons.1 h)
  · rename_i apart
    refine List.isChain_cons.2 ⟨fun s first both => ?_, h⟩
    obtain ⟨label, data, children⟩ := t
    obtain ⟨label', data', children'⟩ := s
    cases data with
    | text value =>
        cases data' with
        | text more =>
            obtain ⟨rest, rfl⟩ : ∃ rest, ts = node label' (.text more) children' :: rest :=
              List.head?_eq_some_iff.1 first
            exact apart _ _ _ _ _ _ _ rfl rfl
        | element | comment | doctype | fragment => cases both.2
    | element | comment | doctype | fragment => cases both.1

theorem parted_joinAll (ts : List (NodeTree ι)) : Parted (joinAll ts) := by
  induction ts with
  | nil => exact .nil
  | cons t ts ih => exact parted_attach ih t.join

theorem mem_attach {s t : NodeTree ι} {ts : List (NodeTree ι)} (h : s ∈ attach t ts)
    (other : s.isText = false) : s = t ∨ s ∈ ts := by
  unfold attach at h
  split at h
  · rcases List.mem_cons.1 h with rfl | mem
    · cases other
    · exact .inr (List.mem_cons_of_mem _ mem)
  · exact List.mem_cons.1 h

/-- All but texts is there before, with its children joined. -/
theorem mem_joinAll {s : NodeTree ι} {ts : List (NodeTree ι)} (h : s ∈ joinAll ts)
    (other : s.isText = false) : ∃ t ∈ ts, s = t.join := by
  induction ts with
  | nil => cases h
  | cons t ts ih =>
      rcases mem_attach h other with rfl | mem
      · exact ⟨t, List.mem_cons_self, rfl⟩
      · obtain ⟨t', there, same⟩ := ih mem
        exact ⟨t', List.mem_cons_of_mem t there, same⟩

/-! ## Reading again -/

/-- Nothing is hidden at the beginning of what is printed: no line feed that is dropped when the
content is read, and no dashes by which a doctype becomes a comment. -/
def Plain (t : NodeTree ι) : Prop :=
  match t.data with
  | .element name _ => (TagRules.of name).skipsNewline = true → ∀ cs, t.inner.toList ≠ '\n' :: cs
  | .doctype value => ¬['-', '-'] <+: value.toList
  | _ => True

theorem readableAll_attach {spell : String × String → List Char} {t : NodeTree ι}
    {ts : List (NodeTree ι)} (h : t.Readable spell) (all : ReadableAll spell ts) :
    ReadableAll spell (attach t ts) := by
  unfold attach
  split
  · refine ⟨⟨fun nothing => h.1 ?_, h.2⟩, all.2⟩
    exact (String.append_eq_empty_iff.1 nothing).1
  · exact ⟨h, all⟩

theorem elementReadable_join {label : ι} {name : String} {attributes : List (String × Value)}
    {children : List (NodeTree ι)} (h : ElementParsed name attributes children)
    (plain : (node label (.element name attributes) children).Plain) :
    ElementReadable quoted name attributes (joinAll children) where
  plain := h.plain
  distinct := h.distinct
  reads name start rest offset := readTagBody_quoted name start rest _
    (List.forall_mem_map.2 h.named) offset
  strings := h.strings
  parted := parted_joinAll children
  void void := by
    rw [h.void void]
    rfl
  unclosed t mem tag entries same := by
    have other : t.isText = false := by
      rw [isText, same]
    obtain ⟨s, there, rfl⟩ := mem_joinAll mem other
    refine h.unclosed s there tag entries ?_
    cases s
    exact same
  raw model := by
    rcases h.content (by rw [model]; decide) with rfl | ⟨id, value, rfl, free⟩
    · exact .inl rfl
    · exact .inr ⟨id, value, rfl, free model⟩
  escapable model := by
    rcases h.content (by rw [model]; decide) with rfl | ⟨id, value, rfl, -⟩
    · exact .inl rfl
    · exact .inr ⟨id, value, rfl⟩
  newline skips t ts value first text cs begins := by
    obtain ⟨id, data, below⟩ := t
    obtain rfl : data = .text value := text
    have inner : (node label (.element name attributes) children).inner =
        (node id (.text value) below).print (NodeData.element name attributes).isRaw ++
          printAll (NodeData.element name attributes).isRaw ts := by
      rw [NodeTree.inner, ← printAll_joinAll]
      exact congrArg (printAll _) first
    refine plain skips (((node id (.text value) below).print
      (NodeData.element name attributes).isRaw).toList.tail ++
        (printAll (NodeData.element name attributes).isRaw ts).toList) ?_
    rw [inner, String.toList_append]
    cases (NodeData.element name attributes).isRaw with
    | true => simp [print, begins]
    | false => simp [print, escapeText, begins, escapedTextChar]

mutual

theorem readable_join : (t : NodeTree ι) → t.Parsed → (∀ q s, Within none t q s → s.Plain) →
    t.join.Readable quoted
  | node label data children, h, plain => by
      have below := readableAll_joinAll children
      cases data with
      | element name attributes =>
          refine ⟨elementReadable_join h.1 (plain none _ .self), below h.2 fun t mem q s inside => ?_⟩
          obtain ⟨q', there⟩ := inside.reparent (some label)
          exact plain q' s ((Within.self.child mem).trans there)
      | text value =>
          obtain ⟨some_text, rfl⟩ := h
          exact ⟨some_text, rfl⟩
      | comment value =>
          obtain ⟨out, rfl⟩ := h
          exact ⟨out, rfl⟩
      | doctype value =>
          obtain ⟨out, rfl⟩ := h
          exact ⟨out, plain none _ .self, rfl⟩
      | fragment => exact h

theorem readableAll_joinAll : (ts : List (NodeTree ι)) → ParsedAll ts →
    (∀ t ∈ ts, ∀ q s, Within none t q s → s.Plain) → ReadableAll quoted (joinAll ts)
  | [], _, _ => trivial
  | t :: ts, h, plain =>
      readableAll_attach (readable_join t h.1 (plain t List.mem_cons_self))
        (readableAll_joinAll ts h.2 fun s mem => plain s (List.mem_cons_of_mem t mem))

end

/-- What has been read is printed and read again as the same trees, with neighbouring texts joined. -/
theorem parse_printAll_join {ts : List (NodeTree ι)} (h : ParsedAll ts)
    (plain : ∀ t ∈ ts, ∀ q s, Within none t q s → s.Plain) :
    parse (printAll false ts) = ((joinAll ts).map shape, []) := by
  rw [← printAll_joinAll]
  exact parse_of_readable (parted_joinAll ts) (readableAll_joinAll ts h plain)

end Stencil.Markup.NodeTree
