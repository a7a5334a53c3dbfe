import Stencil.Proofs.Compile.Bench
import Stencil.Proofs.Markup.Relabelling

/-! # Trees that take the place of others

While a template is compiled, some of the trees below a node are exchanged for others. What
is said of one exchange is put together from what is said of its parts.
-/

namespace Stencil

open Markup NodeTree View

/-- A place among the children of a node. -/
structure Gap where
  data : NodeData
  parent : Option NodeId
  before : List NodeId
  after : List NodeId

namespace Gap

/-- The node with some children in that place. -/
def fill (g : Gap) (kids : List NodeId) : Node :=
  { data := g.data, parent := g.parent, children := g.before ++ kids ++ g.after }

/-- The place in front of other children in the same place. -/
def left (g : Gap) (kids : List NodeId) : Gap := { g with after := kids ++ g.after }

/-- The place behind other children in the same place. -/
def right (g : Gap) (kids : List NodeId) : Gap := { g with before := g.before ++ kids }

theorem fill_left (g : Gap) (kids more : List NodeId) :
    (g.left more).fill kids = g.fill (kids ++ more) := by
  simp [fill, left]

theorem fill_right (g : Gap) (kids more : List NodeId) :
    (g.right kids).fill more = g.fill (kids ++ more) := by
  simp [fill, right]

/-- The place of all children. -/
def inside (data : NodeData) (parent : Option NodeId) : Gap :=
  { data, parent, before := [], after := [] }

@[simp] theorem fill_inside (data : NodeData) (parent : Option NodeId) (kids : List NodeId) :
    (inside data parent).fill kids = { data, parent, children := kids } := by
  simp [fill, inside]

end Gap

namespace Compile

/-- Below `p` the nodes `old` have given way to the trees `us`, which show the trees of a
plan; nothing else has changed but the children of `p`. -/
structure Grown (w w' : Workbench) (p : NodeId) (g : Gap) (old : List NodeId)
    (us : List (NodeTree NodeId)) (trees : List (NodeTree Slot)) : Prop where
  sound : w'.Sound
  host : w'.document.view p = some (g.fill (us.map label))
  stands : w'.document.view.StandAll (some p) us
  shown : us.map (NodeTree.map w'.hosts.slotOf) = trees
  frame : ∀ x, x ≠ p → x ∉ old → w.document.view x ≠ none →
    w'.document.view x = w.document.view x
  fresh : ∀ x ∈ labelsAll us, x ∈ old ∨ w.document.view x = none
  others : ∀ x, x ∉ labelsAll us → w'.hosts.slotOf x = w.hosts.slotOf x

namespace Grown

variable {w w₁ w₂ : Workbench} {p : NodeId} {g : Gap} {old old₁ old₂ : List NodeId}
  {us vs : List (NodeTree NodeId)} {trees trees₁ trees₂ : List (NodeTree Slot)}

/-- Trees that stay as they are. -/
theorem refl (h : w.Sound) (host : w.document.view p = some (g.fill (us.map label)))
    (stands : w.document.view.StandAll (some p) us) :
    Grown w w p g (labelsAll us) us (us.map (NodeTree.map w.hosts.slotOf)) where
  sound := h
  host := host
  stands := stands
  shown := rfl
  frame _ _ _ _ := rfl
  fresh _ mem := .inl mem
  others _ _ := rfl

theorem empty (h : w.Sound) (host : w.document.view p = some (g.fill [])) :
    Grown w w p g [] [] [] :=
  refl h host (show w.document.view.StandAll (some p) [] from trivial)

theorem parent_not_mem (h : Grown w w₁ p g old us trees) : p ∉ labelsAll us :=
  h.sound.document.forest.not_mem_labelsAll h.stands

theorem live (h : Grown w w₁ p g old us trees) {x : NodeId} (mem : x ∈ labelsAll us) :
    w₁.document.view x ≠ none := by
  obtain ⟨t, listed, q, s, inside, rfl⟩ := exists_withinAll (some p) us x mem
  exact (standAll_iff.1 h.stands t listed).live inside.label_mem

/-- A number that is not in use afterwards was that of an old node or not in use. -/
theorem old_or_fresh (h : Grown w w₁ p g old us trees) {x : NodeId}
    (fresh : w₁.document.view x = none) : x ∈ old ∨ w.document.view x = none := by
  by_cases inside : x ∈ old
  · exact .inl inside
  · refine .inr (Classical.byContradiction fun there => there ?_)
    have other : x ≠ p := by
      intro same
      rw [same, h.host] at fresh
      cases fresh
    rw [← h.frame x other inside there, fresh]

/-- One exchange after another in the place behind it. -/
theorem append {mid : List NodeId} (first : Grown w w₁ p (g.left mid) old₁ us trees₁)
    (second : Grown w₁ w₂ p (g.right (us.map label)) old₂ vs trees₂)
    (apart : ∀ x ∈ old₁, x ∉ old₂) (before : ∀ x ∈ old₂, w.document.view x ≠ none) :
    Grown w w₂ p g (old₁ ++ old₂) (us ++ vs) (trees₁ ++ trees₂) := by
  have out : ∀ x ∈ labelsAll us, x ∉ old₂ := by
    intro x mem inside
    rcases first.fresh x mem with known | fresh
    · exact apart x known inside
    · exact before x inside fresh
  have disjoint : ∀ x ∈ labelsAll us, x ∉ labelsAll vs := by
    intro x mem inside
    rcases second.fresh x inside with known | fresh
    · exact out x mem known
    · exact first.live mem fresh
  have kept : ∀ x ∈ labelsAll us, w₂.document.view x = w₁.document.view x := by
    intro x mem
    have other : x ≠ p := fun same => first.parent_not_mem (same ▸ mem)
    exact second.frame x other (out x mem) (first.live mem)
  refine ⟨second.sound, ?_, ?_, ?_, fun x other mem there => ?_, fun x mem => ?_, fun x mem => ?_⟩
  · rw [second.host, Gap.fill_right, List.map_append]
  · exact standAll_append.2 ⟨standAll_congr _ us kept first.stands, second.stands⟩
  · have same : us.map (NodeTree.map w₂.hosts.slotOf) = us.map (NodeTree.map w₁.hosts.slotOf) := by
      rw [← mapAll_eq_map, ← mapAll_eq_map]
      exact mapAll_congr us fun x mem => second.others x (disjoint x mem)
    rw [List.map_append, same, first.shown, second.shown]
  · rw [List.mem_append, not_or] at mem
    have still := first.frame x other mem.1 there
    rw [second.frame x other mem.2 (still ▸ there), still]
  · rw [labelsAll_append, List.mem_append] at mem
    rw [List.mem_append]
    rcases mem with mem | mem
    · exact (first.fresh x mem).imp_left .inl
    · rcases second.fresh x mem with known | fresh
      · exact .inl (.inr known)
      · exact (first.old_or_fresh fresh).imp_left .inl
  · rw [labelsAll_append, List.mem_append, not_or] at mem
    rw [second.others x mem.2, first.others x mem.1]

/-- Reported steps do not count. -/
theorem untraced {steps : List String} (h : Grown { w with steps } w₁ p g old us trees) :
    Grown w w₁ p g old us trees where
  sound := h.sound
  host := h.host
  stands := h.stands
  shown := h.shown
  frame := h.frame
  fresh := h.fresh
  others := h.others

end Grown

/-! ## New leaves -/

section Leaves

variable {w w₁ : Workbench} {p c r : NodeId} {g : Gap} {old rest : List NodeId} {data : NodeData}

/-- A new node is put in front of a child. -/
theorem insert_leaf (h : w.Sound) (host : w.document.view p = some (g.fill (r :: rest)))
    {d : Document} (sound : d.Sound) (fresh : w.document.view c = none)
    (node : d.view c = some { data, parent := none, children := [] })
    (frame : ∀ x, x ≠ c → d.view x = w.document.view x) (solid : data ≠ .fragment) :
    ∃ d', Document.insertBefore p c r d = .ok () d' ∧
      Grown w { w with document := d' } p (g.left (r :: rest)) [] [.node c data []]
        [.node [] data []] := by
  have apart : c ≠ p := by
    intro same
    rw [same, host] at fresh
    cases fresh
  have host' : d.view p = some {
      data := g.data, parent := g.parent, children := g.before ++ r :: (rest ++ g.after) } := by
    rw [frame p apart.symm, host]
    simp [Gap.fill]
  obtain ⟨d', run, sound', host'', node', frame'⟩ :=
    Document.insertBefore_ok sound host' node solid apart
  have kept : ∀ x, x ≠ p → w.document.view x ≠ none → d'.view x = w.document.view x := by
    intro x other there
    have xc : x ≠ c := fun same => there (same ▸ fresh)
    rw [frame' x other xc, frame x xc]
  have still : Workbench.Sound { w with document := d' } := by
    refine h.edited sound' fun x _ there => ?_
    by_cases same : x = p
    · rw [same, host'']
      simp
    · rwa [kept x same there]
  refine ⟨d', run, still, ?_, ⟨⟨node', trivial⟩, trivial⟩, ?_, fun x other _ there => ?_,
    fun x mem => ?_, fun _ _ => rfl⟩
  · rw [host'']
    simp [Gap.fill, Gap.left, label]
  · simp [NodeTree.map, h.slotOf_of_fresh fresh]
  · exact kept x other there
  · have same : x = c := by simpa using mem
    exact .inr (same ▸ fresh)

/-- A text is put in front of a child. -/
theorem insertText_ok (h : w.Sound) (host : w.document.view p = some (g.fill (r :: rest)))
    (value : String) :
    ∃ c d', (do Document.insertBefore p (← Document.createText value) r : Edit Unit) w.document =
        .ok () d' ∧
      Grown w { w with document := d' } p (g.left (r :: rest)) [] [.node c (.text value) []]
        [.node [] (.text value) []] := by
  obtain ⟨c, d, created, sound, fresh, node, frame⟩ := Document.createText_ok h.document value
  obtain ⟨d', run, grown⟩ := insert_leaf h host sound fresh node frame nofun
  refine ⟨c, d', ?_, grown⟩
  rw [bind_ok created]
  exact run

/-- An element is put in front of a child. -/
theorem insertElement_ok (h : w.Sound) (host : w.document.view p = some (g.fill (r :: rest)))
    (name : String) :
    ∃ c d', (do
        let wrapper ← Document.createElement name
        Document.insertBefore p wrapper r
        return wrapper : Edit NodeId) w.document = .ok c d' ∧
      Grown w { w with document := d' } p (g.left (r :: rest)) []
        [.node c (.element (Text.lower name) []) []]
        [.node [] (.element (Text.lower name) []) []] := by
  obtain ⟨c, d, created, sound, fresh, node, frame⟩ := Document.createElement_ok h.document name
  obtain ⟨d', run, grown⟩ := insert_leaf h host sound fresh node frame nofun
  refine ⟨c, d', ?_, grown⟩
  rw [bind_ok created, bind_ok run]
  rfl

/-- The first references of a leaf. -/
theorem Grown.refer (h : Grown w w₁ p g old [.node c data []] [.node [] data []])
    (r : Reference CompiledTemplate) {w₂ : Workbench} (document : w₂.document = w₁.document)
    (hosts : w₂.hosts = w₁.hosts.add c r) :
    Grown w w₂ p g old [.node c data []] [.node [r] data []] := by
  have dressed : Dressed w₁ w₂ c [r] := .add h.sound r (h.live (by simp)) document hosts
  have none_yet : w₁.hosts.slotOf c = [] := by
    have shown := h.shown
    simp only [List.map_cons, NodeTree.map, List.map_nil, List.cons.injEq, NodeTree.node.injEq]
      at shown
    exact shown.1.1
  refine ⟨dressed.sound, document ▸ h.host, document ▸ h.stands, ?_, document ▸ h.frame, h.fresh,
    fun x mem => ?_⟩
  · simp [NodeTree.map, mapAll, dressed.own, none_yet]
  · have other : x ≠ c := by simpa using mem
    rw [dressed.others x other, h.others x mem]

end Leaves

end Compile

end Stencil
