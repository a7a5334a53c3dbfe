import Mathlib.Data.List.Forall2
import Stencil.Proofs.Document.Operation
import Stencil.Proofs.Markup.Growth

/-! # Listing

The nodes that are built from markup, listed in document order, are its tokens without the
closing tags: whatever is closed early, late or not at all, no token is lost and none is
used twice.
-/

namespace Stencil

open Markup NodeTree

namespace Markup

/-! ## What a token makes -/

/-- The first attribute of every name counts. -/
theorem firstAttributes_eq_eraseDupsBy (entries : List (String × String)) :
    firstAttributes entries =
      (entries.eraseDupsBy fun a b => a.1 == b.1).map fun entry => (entry.1, .string entry.2) := by
  have further : ∀ (entries : List (String × String)) (kept : List (String × Value)),
      entries.foldl (fun kept entry =>
          if kept.any (·.1 == entry.1) then kept else kept ++ [(entry.1, .string entry.2)]) kept =
        kept ++ ((entries.filter fun entry => !kept.any (·.1 == entry.1)).eraseDupsBy
          fun a b => a.1 == b.1).map fun entry => (entry.1, .string entry.2) := by
    intro entries
    induction entries with
    | nil => intro kept; simp [List.eraseDupsBy, List.eraseDupsBy.loop]
    | cons entry entries ih =>
        intro kept
        rw [List.foldl_cons, List.filter_cons, ih]
        cases known : kept.any (·.1 == entry.1) with
        | true => simp
        | false =>
            simp only [Bool.false_eq_true, ↓reduceIte, List.any_append, List.any_cons,
              List.any_nil, Bool.or_false, Bool.not_or, List.append_assoc, List.cons_append,
              List.nil_append, Bool.not_false, List.eraseDupsBy_cons, beq_eq_false_iff_ne, ne_eq,
              decide_not, List.filter_filter, List.map_cons, List.append_cancel_left_eq,
              List.cons.injEq, true_and]
            refine congrArg (fun left => List.map _ (List.eraseDupsBy _ left))
              (List.filter_congr fun other _ => ?_)
            rw [Bool.and_comm, Bool.beq_comm, beq_eq_decide]
  refine (further entries []).trans ?_
  simp

namespace Lexeme

/-- Whether the lexeme is a closing tag. -/
def isClosing : Lexeme → Bool
  | closeTag _ => true
  | _ => false

/-- The lexeme makes a node with this data, which has no children where `leaf` says so. -/
def Makes : Lexeme → NodeData → Bool → Prop
  | openTag name attributes selfClosing, data, leaf =>
      data = .element name
          ((attributes.eraseDupsBy fun a b => a.1 == b.1).map fun a => (a.1, .string a.2)) ∧
        ((TagRules.of name).isVoid || selfClosing → leaf)
  | text value, data, leaf => data = .text value ∧ leaf
  | comment value, data, leaf => data = .comment value ∧ leaf
  | doctype value, data, leaf => data = .doctype value ∧ leaf
  | closeTag _, _, _ => False

/-- What may have children may also have none. -/
theorem Makes.settle {lexeme : Lexeme} {data : NodeData} {leaf : Bool}
    (h : lexeme.Makes data false) : lexeme.Makes data leaf := by
  cases lexeme with
  | openTag name attributes selfClosing => exact ⟨h.1, fun bare => nomatch h.2 bare⟩
  | text value => exact nomatch h.2
  | comment value => exact nomatch h.2
  | doctype value => exact nomatch h.2
  | closeTag name => exact h

end Lexeme

/-! ## Lists of nodes -/

/-- What a list of nodes says of one of them: its data, and whether it has no children. -/
abbrev Entry := NodeData × Bool

namespace NodeTree

variable {ι : Type}

mutual

/-- The nodes of a tree in document order, each before its children. -/
def entries : NodeTree ι → List Entry
  | node _ data children => (data, children.isEmpty) :: entriesAll children

def entriesAll : List (NodeTree ι) → List Entry
  | [] => []
  | t :: ts => entries t ++ entriesAll ts

end

@[simp] theorem entriesAll_append (ts us : List (NodeTree ι)) :
    entriesAll (ts ++ us) = entriesAll ts ++ entriesAll us := by
  induction ts with
  | nil => rfl
  | cons t ts ih => simp [entriesAll, ih]

@[simp] theorem entriesAll_singleton (t : NodeTree ι) : entriesAll [t] = t.entries := by
  simp [entriesAll]

mutual

/-- Labels are not listed. -/
theorem entries_shape : (t : NodeTree ι) → t.shape.entries = t.entries
  | node label data children => by
      rw [shape_node]
      simp [entries, entriesAll_map_shape children]

theorem entriesAll_map_shape : (ts : List (NodeTree ι)) →
    entriesAll (ts.map shape) = entriesAll ts
  | [] => rfl
  | t :: ts => by simp [entriesAll, entries_shape t, entriesAll_map_shape ts]

end

end NodeTree

open NodeTree

/-! ## Growing lists -/

namespace OpenElement

/-- The nodes of an open element. Its own children may still be to come. -/
def entries (e : OpenElement) : List Entry :=
  (.element e.name e.attributes, false) :: entriesAll e.children.reverse

end OpenElement

namespace Growth

/-- All nodes grown so far, in document order: an open element follows what was closed before
it was opened. -/
def entries (g : Growth) : List Entry :=
  entriesAll g.outer.reverse ++ g.opened.reverse.flatMap OpenElement.entries

variable {g : Growth} {lexemes : List Lexeme}

theorem entries_add (g : Growth) (t : NodeTree Unit) :
    (g.add t).entries = g.entries ++ t.entries := by
  cases hg : g.opened with
  | nil => simp [add, entries, hg]
  | cons top rest => simp [add, entries, hg, OpenElement.entries]

/-- The nodes grown so far are what the lexemes read so far make. -/
def Lists (g : Growth) (lexemes : List Lexeme) : Prop :=
  List.Forall₂ (fun lexeme entry => lexeme.Makes entry.1 entry.2) lexemes g.entries

theorem Lists.add (h : g.Lists lexemes) {lexeme : Lexeme} {data : NodeData}
    (made : lexeme.Makes data true) : (g.add (.node () data [])).Lists (lexemes ++ [lexeme]) := by
  unfold Lists
  rw [entries_add]
  exact List.rel_append h (.cons made .nil)

theorem Lists.opening (h : g.Lists lexemes) {lexeme : Lexeme} {e : OpenElement}
    (none_yet : e.children = []) (made : lexeme.Makes (.element e.name e.attributes) false) :
    ({ g with opened := e :: g.opened } : Growth).Lists (lexemes ++ [lexeme]) := by
  unfold Lists
  have listed : ({ g with opened := e :: g.opened } : Growth).entries =
      g.entries ++ [(.element e.name e.attributes, false)] := by
    simp [entries, OpenElement.entries, none_yet, entriesAll]
  rw [listed]
  exact List.rel_append h (.cons made .nil)

/-- Closing an element only settles whether it has children. -/
theorem Lists.closeTop (h : g.Lists lexemes) : g.closeTop.Lists lexemes := by
  cases hg : g.opened with
  | nil => simpa [Growth.closeTop, hg] using h
  | cons top rest =>
      have before : g.entries = ({ g with opened := rest } : Growth).entries ++ top.entries := by
        simp [entries, hg]
      have after : g.closeTop.entries =
          ({ g with opened := rest } : Growth).entries ++ top.close.entries := by
        simp only [Growth.closeTop, hg, entries_add]
      unfold Lists at h ⊢
      rw [before] at h
      rw [after, ← List.take_append_drop ({ g with opened := rest } : Growth).entries.length lexemes]
      refine List.rel_append (List.forall₂_take_append _ _ _ h) ?_
      obtain ⟨lexeme, others, made, below, own⟩ :=
        List.forall₂_cons_right_iff.1 (List.forall₂_drop_append _ _ _ h)
      rw [own]
      exact .cons made.settle below

theorem Lists.close (h : g.Lists lexemes) (n : Nat) : (g.close n).Lists lexemes :=
  close_keeps (P := (Lists · lexemes)) Lists.closeTop h n

theorem Lists.reportTop (h : g.Lists lexemes) : g.reportTop.Lists lexemes := by
  unfold Growth.reportTop
  split
  · exact h
  · split <;> exact h

theorem Lists.abandon (h : g.Lists lexemes) (n : Nat) : (g.abandon n).Lists lexemes :=
  abandon_keeps (P := (Lists · lexemes)) Lists.closeTop Lists.reportTop h n

theorem lists_step (h : g.Lists lexemes) (token : Token) :
    (g.step token).Lists (lexemes ++ [token.lexeme].filter fun lexeme => !lexeme.isClosing) := by
  cases hl : token.lexeme with
  | text value =>
      simp only [Growth.step, hl]
      exact h.add ⟨rfl, rfl⟩
  | comment value =>
      simp only [Growth.step, hl]
      exact h.add ⟨rfl, rfl⟩
  | doctype value =>
      simp only [Growth.step, hl]
      exact h.add ⟨rfl, rfl⟩
  | openTag name attributes selfClosing =>
      simp only [Growth.step, hl, firstAttributes_eq_eraseDupsBy]
      have closed := h.close (g.opened.takeWhile fun e => (TagRules.of e.name).isClosedBy name).length
      split
      · exact closed.add ⟨rfl, fun _ => rfl⟩
      · rename_i inside
        exact closed.opening rfl ⟨rfl, fun bare => absurd bare inside⟩
  | closeTag name =>
      simp only [Growth.step, hl]
      have none_new : lexemes ++ [Lexeme.closeTag name].filter (fun lexeme => !lexeme.isClosing) =
          lexemes := by simp [Lexeme.isClosing]
      rw [none_new]
      split
      · exact h
      · split
        · exact (h.abandon _).closeTop
        · exact h

theorem lists_run (h : g.Lists lexemes) (tokens : List Token) :
    (tokens.foldl Growth.step g).Lists
      (lexemes ++ (tokens.map Token.lexeme).filter fun lexeme => !lexeme.isClosing) := by
  induction tokens generalizing g lexemes with
  | nil => simpa using h
  | cons token tokens ih =>
      have further := ih (lists_step h token)
      rwa [List.append_assoc, ← List.filter_append] at further

end Growth

/-- The nodes of any markup are what its tokens make, the closing tags apart. -/
theorem forall₂_makes_parse (markup : String) :
    List.Forall₂ (fun lexeme entry => lexeme.Makes entry.1 entry.2)
      (((tokenize markup).1.map Token.lexeme).filter fun lexeme => !lexeme.isClosing)
      (entriesAll (parse markup).1) := by
  have grown := Growth.lists_run (show Growth.start.Lists [] from .nil) (tokenize markup).1
  have closed := grown.abandon ((tokenize markup).1.foldl Growth.step Growth.start).opened.length
  have none_open := Growth.opened_abandon ((tokenize markup).1.foldl Growth.step Growth.start)
  simpa [Growth.Lists, Growth.entries, none_open, parse] using closed

end Markup

/-! ## Standing lists -/

namespace View

variable {v : View}

mutual

/-- Every number of a standing tree has the node that is listed there. -/
theorem map_labels_of_stands : (p : Option NodeId) → (t : NodeTree NodeId) → v.Stands p t →
    (t.labels.map fun id => (v id).map fun n => (n.data, n.children.isEmpty)) =
      t.entries.map some
  | _, .node id data children, h => by
      have below := map_labelsAll_of_standAll (some id) children h.2
      simp [entries, h.1, below]

theorem map_labelsAll_of_standAll : (p : Option NodeId) → (ts : List (NodeTree NodeId)) →
    v.StandAll p ts →
    ((labelsAll ts).map fun id => (v id).map fun n => (n.data, n.children.isEmpty)) =
      (entriesAll ts).map some
  | _, [], _ => rfl
  | p, t :: ts, h => by
      simp [entriesAll, map_labels_of_stands p t h.1, map_labelsAll_of_standAll p ts h.2]

end

end View

/-- In every document, whatever has been done to it, building markup gives a fragment without
a parent. The nodes below it, in document order, are what the tokens of the markup make, the
closing tags apart, one node each. These nodes and the fragment are new, and all others are as
they were. -/
theorem plantMarkup_lists (name : String) (strict : Bool) (ops : List Operation)
    (markup : String) :
    let d := Operation.run { name := name, strict := strict } ops
    ∃ root errors d' t,
      Document.plantMarkup markup d = .ok (root, errors) d' ∧
      d'.tree root = .ok t ∧ t.label = root ∧ t.labels.Nodup ∧
      d'.view root = some { data := .fragment, parent := none, children := t.children.map label } ∧
      List.Forall₂
        (fun lexeme id => ∃ n, d'.view id = some n ∧ lexeme.Makes n.data n.children.isEmpty)
        (((tokenize markup).1.map Token.lexeme).filter fun lexeme => !lexeme.isClosing)
        (labelsAll t.children) ∧
      (∀ x, d.view x = none ∧ d'.view x ≠ none ↔ x ∈ t.labels) ∧
      ∀ x, d.view x ≠ none → d'.view x = d.view x := by
  intro d
  have accounted : d.Accounted := Operation.lasting_run Document.lasting_accounted ops
    (Document.accounted_empty name strict)
  obtain ⟨t, label, planted⟩ := Document.planted_plant
    (node () .fragment (parse markup).1) none d accounted
  obtain ⟨top, trees⟩ := planted.parts
  have made := forall₂_makes_parse markup
  rw [← trees, entriesAll_map_shape] at made
  have shown := View.map_labelsAll_of_standAll _ _ planted.stands.children
  refine ⟨_, _, _, t, Document.plantMarkup_run accounted markup, ?_, label, planted.nodup, ?_, ?_, ?_, ?_⟩
  · rw [← label]
    exact Document.tree_of_stands planted.stands planted.nodup
  · rw [← label, planted.stands.top, top]
  · have paired : List.Forall₂
        (fun (lexeme : Lexeme) found =>
          ∃ entry : Entry, found = some entry ∧ lexeme.Makes entry.1 entry.2) _
        ((entriesAll t.children).map some) :=
      List.forall₂_map_right_iff.2 (made.imp fun _ entry makes => ⟨entry, rfl, makes⟩)
    rw [← shown, List.forall₂_map_right_iff] at paired
    refine paired.imp fun lexeme id shown => ?_
    obtain ⟨entry, found, makes⟩ := shown
    obtain ⟨n, node, rfl⟩ := Option.map_eq_some_iff.1 found
    exact ⟨n, node, makes⟩
  · refine fun x => ⟨?_, fun mem =>
      ⟨planted.trades.fresh x mem (by simp), planted.stands.live mem⟩⟩
    rintro ⟨old, new⟩
    by_contra out
    exact new ((planted.trades.frame x (by simp) out).trans old)
  · intro x old
    exact planted.trades.frame x (by simp) fun mem => old (planted.trades.fresh x mem (by simp))

end Stencil
