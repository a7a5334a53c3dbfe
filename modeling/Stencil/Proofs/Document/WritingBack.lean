import Stencil.Proofs.Document.Tending
import Stencil.Proofs.Markup.Joining

/-! # Writing back

What has been read into a document is written back: the inner markup of an element, set as its
inner markup, stays as it is.
-/

namespace Stencil

open Markup NodeTree

namespace Markup.NodeTree

variable {ι : Type}

theorem ElementParsed.of_shape {name : String} {attributes : List (String × Value)}
    {children : List (NodeTree ι)} (h : ElementParsed name attributes (children.map shape)) :
    ElementParsed name attributes children :=
  { h with
    void := fun void => List.map_eq_nil_iff.1 (h.void void)
    unclosed := fun t mem tag entries same =>
      h.unclosed t.shape (List.mem_map_of_mem mem) tag entries ((data_shape t).trans same)
    content := fun model => by
      rcases h.content model with nothing | ⟨_, value, text, free⟩
      · exact .inl (List.map_eq_nil_iff.1 nothing)
      · obtain ⟨⟨label, data, below⟩, rfl, same⟩ := List.map_eq_singleton_iff.1 text
        rw [shape_node] at same
        obtain ⟨-, rfl, nothing⟩ := node.inj same
        obtain rfl := List.map_eq_nil_iff.1 nothing
        exact .inr ⟨label, value, rfl, free⟩ }

mutual

theorem parsed_of_shape : (t : NodeTree ι) → t.shape.Parsed → t.Parsed
  | node label data children, h => by
      rw [shape_node] at h
      cases data with
      | element name attributes => exact ⟨h.1.of_shape, parsedAll_of_shape children h.2⟩
      | text | comment | doctype => exact ⟨h.1, List.map_eq_nil_iff.1 h.2⟩
      | fragment => exact h

theorem parsedAll_of_shape : (ts : List (NodeTree ι)) → ParsedAll (ts.map shape) → ParsedAll ts
  | [], _ => trivial
  | t :: ts, h => ⟨parsed_of_shape t h.1, parsedAll_of_shape ts h.2⟩

end

/-- What is below a parsed tree is parsed. -/
theorem Parsed.children {t : NodeTree ι} (h : t.Parsed) : ParsedAll t.children := by
  obtain ⟨label, data, children⟩ := t
  cases data with
  | element => exact h.2
  | text | comment | doctype =>
      obtain ⟨-, rfl⟩ := h
      trivial
  | fragment => exact h.elim

theorem Within.parsed {p q : Option ι} {s t : NodeTree ι} (h : Within p t q s)
    (all : ParsedAll t.children) : ParsedAll s.children := by
  induction h with
  | self => exact all
  | child _ mem ih => exact (parsedAll_iff.1 ih _ mem).children

end Markup.NodeTree

namespace Document

variable {d : Document}

/-- In a sound document that mends flaws, read some markup. The inner markup of every element that
comes from it can be set again. Unless the content of the element is written as it stands, or the
markup hides something at the beginning of a node below it, it stays as it is. -/
theorem setInner_inner (h : d.Steady) (markup : String) :
    ∃ root d₁ F, parseMarkup markup d = .ok root d₁ ∧ d₁.tree root = .ok F ∧
      ∀ q T, Within none F q T → T.data.isElement = true →
        d₁.inner T.label = .ok T.inner ∧
          ∃ d₂, setInner T.label T.inner d₁ = .ok () d₂ ∧
            (T.data.isRaw = false → (∀ c ∈ T.children, ∀ r s, Within none c r s → s.Plain) →
              d₂.inner T.label = .ok T.inner) := by
  obtain ⟨F, label, planted⟩ :=
    planted_plant (.node () .fragment (parse markup).1) none d h.sound.accounted
  have parsed := parseMarkup_clean h.sound.accounted markup (.inl h.lenient) planted.trades.strict
  have steady := h.ok parsed (keeps_parseMarkup markup d h.sound) fun l => l.parseMarkup markup
  rw [← label] at parsed
  generalize (d.plant none (.node () .fragment (parse markup).1)).2 = d₁ at *
  refine ⟨F.label, d₁, F, parsed, tree_of_stands planted.stands planted.nodup, ?_⟩
  intro q T inside element
  have stands := planted.stands.within inside
  have read := tree_of_stands stands (planted.nodup.sublist inside.sublist)
  have container : T.data.isContainer = true := by
    cases data : T.data <;> rw [data] at element <;> first | rfl | cases element
  have below : ParsedAll T.children :=
    inside.parsed (parsedAll_of_shape F.children (planted.parts.2 ▸ parsedAll_parse markup))
  obtain ⟨d₂, run, tended, carries⟩ := setInner_tended steady stands.top container T.inner
  refine ⟨by rw [inner, read]; rfl, d₂, run, fun solid plain => ?_⟩
  obtain ⟨n, m, before, after, same, -⟩ := tended.top
  obtain rfl := Option.some.inj (stands.top.symm.trans before)
  obtain ⟨G, own, standing, top, kids⟩ := carries.exists_tree after
  obtain ⟨T', again, label', stands'⟩ := Document.exists_tree tended.steady.forest after
  obtain rfl := View.stands_unique G standing stands' (own.trans label'.symm)
  have markup' : T.inner = printAll false T.children := by rw [NodeTree.inner, solid]
  rw [markup', parse_printAll_join below plain] at kids
  rw [inner, again, markup']
  show Except.ok (printAll G.data.isRaw G.children) = _
  rw [top, same, solid, printAll_eq_of_shape kids, printAll_joinAll]

end Document

end Stencil
