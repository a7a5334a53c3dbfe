import Stencil.Proofs.Document.Lenience

/-! # Sparing what is outside

A change spares what is outside of some trees when every node there is as it was. Unlike a
confined change it may leave new nodes anywhere, as an edit does that is given up half way.
-/

namespace Stencil

open Markup NodeTree

namespace View

variable {u v w : View} {tops more : List NodeId} {a g x : NodeId} {n m : Node}

/-- The nodes outside of some trees are as they were. New nodes may have come. -/
def Spared (tops : List NodeId) (v w : View) : Prop :=
  ∀ ⦃x n⦄, v x = some n → ¬Inside tops v x → w x = some n

theorem Confined.spared (h : Confined tops v w) : Spared tops v w := fun _ _ node out =>
  (h.node node out).1

namespace Spared

theorem refl (tops : List NodeId) (v : View) : Spared tops v v := fun _ _ node _ => node

theorem of_kept (kept : ∀ x n, v x = some n → w x = some n) : Spared tops v w :=
  fun x n node _ => kept x n node

theorem mono (h : Spared tops v w) (sub : tops ⊆ more) : Spared more v w := by
  intro x n node out
  apply h node
  intro inside
  exact out (inside.mono sub)

/-- What spares all that is outside of parts of some trees spares what is outside of the trees. -/
theorem lift {parts : List NodeId} (h : Spared parts v w) (inside : ∀ a ∈ parts, Inside tops v a) :
    Spared tops v w := by
  intro x n node out
  apply h node
  rintro ⟨a, mem, above⟩
  obtain ⟨b, listed, higher⟩ := inside a mem
  exact out ⟨b, listed, higher.trans above⟩

/-- A tree that was not there does not count. -/
theorem forget (h : Spared (g :: tops) v w) (f : Forest v) (fresh : v g = none) :
    Spared tops v w := by
  intro x n node out
  apply h node
  rintro ⟨a, mem, above⟩
  rcases List.mem_cons.1 mem with rfl | mem
  · rw [← f.eq_of_above_dead fresh above, fresh] at node
    cases node
  · exact out ⟨a, mem, above⟩

/-- The same nodes are above a node outside. -/
theorem above_iff (h : Spared tops v w) (f : Forest v) (node : v x = some n)
    (out : ¬Inside tops v x) : Above w a x ↔ Above v a x := by
  constructor
  · intro above
    induction above generalizing n with
    | self => exact .self
    | @step x p k there parent _ ih =>
        have same := h node out
        rw [there] at same
        cases same
        obtain ⟨l, up, -⟩ := f.parent node parent
        exact .step node parent (ih up fun inside => out (inside.step node parent))
  · intro above
    clear node
    induction above with
    | self => exact .self
    | step there parent _ ih =>
        exact .step (h there out) parent (ih fun inside => out (inside.step there parent))

theorem not_inside (h : Spared tops v w) (f : Forest v) (node : v x = some n)
    (out : ¬Inside tops v x) : ¬Inside tops w x := by
  rintro ⟨a, mem, above⟩
  exact out ⟨a, mem, (h.above_iff f node out).1 above⟩

theorem trans (h : Spared tops v w) (f : Forest v) (k : Spared tops w u) : Spared tops v u := by
  intro x n node out
  exact k (h node out) (h.not_inside f node out)

/-- The same nodes are above the top of a tree whose parent is the same. -/
theorem above_top (h : Spared [g] v w) (f : Forest v) (node : v g = some n) (node' : w g = some m)
    (same : m.parent = n.parent) : Above w a g ↔ Above v a g := by
  have out : ∀ {p}, n.parent = some p → ¬Inside [g] v p := fun parent inside =>
    (f.rooted node).not_above_parent node parent (inside_singleton.1 inside)
  by_cases top : a = g
  · rw [top]
    exact ⟨fun _ => .self, fun _ => .self⟩
  · cases parent : n.parent with
    | none =>
        constructor
        · intro above
          exact (top (above.eq_of_top node' (same.trans parent))).elim
        · intro above
          exact (top (above.eq_of_top node parent)).elim
    | some p =>
        obtain ⟨k, up, -⟩ := f.parent node parent
        have higher : Above w a p ↔ Above v a p := h.above_iff f up (out parent)
        constructor
        · intro above
          exact .step node parent (higher.1 (above.of_parent node' (same.trans parent) top))
        · intro above
          exact .step node' (same.trans parent) (higher.2 (above.of_parent node parent top))

end Spared

end View

namespace Document

open View Edit

variable {d d' d'' : Document} {g : NodeId} {n m : Node}

/-- The content of a node has been changed, and nothing else that was there. -/
structure Touched (g : NodeId) (d d' : Document) : Prop where
  sound : d'.Sound
  spared : Spared [g] d.view d'.view
  top : ∃ n m, d.view g = some n ∧ d'.view g = some m ∧ m.data = n.data ∧ m.parent = n.parent

theorem Tended.touched (h : Tended g d.lenient d'.lenient) : Touched g d d' :=
  ⟨sound_lenient.1 h.steady.sound, h.confined.spared, h.top⟩

/-- An attribute of an element has been changed, and nothing else that was there. -/
structure Tinted (g : NodeId) (name : String) (d d' : Document) : Prop where
  sound : d'.Sound
  others : ∀ ⦃x n⦄, x ≠ g → d.view x = some n → d'.view x = some n
  own : ∃ n m tag own own', d.view g = some n ∧ d'.view g = some m ∧ n.data = .element tag own ∧
    m.data = .element tag own' ∧ m.parent = n.parent ∧ m.children = n.children ∧
    ∀ other, other ≠ name → own'.lookup other = own.lookup other

/-! ## Edits of any sound document -/

theorem discardChildren_touched (h : d.Sound) (host : d.view g = some n) :
    ∃ d', discardChildren g d = .ok () d' ∧ Touched g d d' := by
  obtain ⟨e, run, -, tended⟩ := discardChildren_tended h.steady host
  obtain ⟨_, d', own, -, rfl⟩ := (Blind.discardChildren g).of_ok run
  exact ⟨d', own, tended.touched⟩

theorem setAttributeValue_tinted (h : d.Sound) (node : d.view g = some n)
    (element : n.data.isElement = true) (name : String) (value : Value) :
    ∃ d', setAttributeValue g name value d = .ok () d' ∧ Tinted g name d d' := by
  obtain ⟨tag, own, host⟩ := exists_element node element
  obtain ⟨d', run, sound, host', others⟩ := setAttributeValue_ok h host name value
  refine ⟨d', run, sound, fun x k other there => (others x other).trans there, ?_⟩
  refine ⟨_, _, tag, own, _, host, host', rfl, rfl, rfl, rfl, fun other ne => ?_⟩
  rw [lookup_putField, if_neg ne]

end Document

end Stencil
