import Stencil.Proofs.Document.Surgery

/-! # Confinement

A change is confined to some trees when all other nodes are what they were and lie outside of
the trees as before. Confined changes compose, a change inside a part of a tree is one inside
the tree, and a tree that is there neither before nor after does not count.
-/

namespace Stencil

open Markup NodeTree

namespace View

variable {u v w : View} {tops more : List NodeId} {a c g x p : NodeId} {n m : Node}

/-- A node is one of some nodes or lies below one of them. -/
def Inside (tops : List NodeId) (v : View) (x : NodeId) : Prop := ∃ a ∈ tops, Above v a x

open Classical in
/-- The nodes of a view that are inside of none of some trees. -/
noncomputable def outside (tops : List NodeId) (v : View) : View := fun x =>
  if Inside tops v x then none else v x

theorem inside_singleton : Inside [g] v x ↔ Above v g x := by
  simp [Inside]

theorem Inside.step (h : Inside tops v p) (node : v x = some n) (parent : n.parent = some p) :
    Inside tops v x := by
  obtain ⟨a, mem, above⟩ := h
  exact ⟨a, mem, .step node parent above⟩

theorem Inside.mono (h : Inside tops v x) (sub : tops ⊆ more) : Inside more v x := by
  obtain ⟨a, mem, above⟩ := h
  exact ⟨a, sub mem, above⟩

theorem outside_eq_some : outside tops v x = some n ↔ v x = some n ∧ ¬Inside tops v x := by
  unfold outside
  split <;> simp_all

/-- Parts of some trees make no difference beside the trees. -/
theorem outside_append_of_inside {parts : List NodeId} (h : ∀ g ∈ parts, Inside tops v g) :
    outside (parts ++ tops) v = outside tops v := by
  have same : ∀ x, Inside (parts ++ tops) v x ↔ Inside tops v x := by
    intro x
    constructor
    · rintro ⟨a, mem, above⟩
      rcases List.mem_append.1 mem with mem | mem
      · obtain ⟨b, listed, higher⟩ := h a mem
        exact ⟨b, listed, higher.trans above⟩
      · exact ⟨a, mem, above⟩
    · exact fun inside => inside.mono (List.subset_append_right ..)
  funext x
  by_cases inside : Inside tops v x
  · simp [outside, inside, (same x).2 inside]
  · simp [outside, inside, mt (same x).1 inside]

theorem outside_cons_of_inside (h : Inside tops v g) : outside (g :: tops) v = outside tops v :=
  outside_append_of_inside (List.forall_mem_singleton.2 h)

theorem Forest.eq_of_above_dead (f : Forest v) (dead : v a = none) (above : Above v a x) : a = x := by
  induction above with
  | self => rfl
  | step node parent _ ih =>
      obtain ⟨k, up, -⟩ := f.parent node parent
      rw [ih, up] at dead
      cases dead

/-- Two nodes that are above each other are one. -/
theorem Forest.above_antisymm (f : Forest v) (node : v x = some n) (upper : Above v a x)
    (lower : Above v x a) : a = x := by
  by_cases same : a = x
  · exact same
  · cases parent : n.parent with
    | none => exact upper.eq_of_top node parent
    | some p =>
        exact ((f.rooted node).not_above_parent node parent
          (lower.trans (upper.of_parent node parent same))).elim

theorem Forest.outside_cons_of_dead (f : Forest v) (dead : v g = none) :
    outside (g :: tops) v = outside tops v := by
  funext x
  by_cases inside : Inside tops v x
  · simp [outside, inside, inside.mono (List.subset_cons_self g tops)]
  · by_cases above : Above v g x
    · have same := f.eq_of_above_dead dead above
      rw [same] at dead
      simp [outside, dead]
    · have out : ¬Inside (g :: tops) v x := by
        rintro ⟨a, mem, higher⟩
        rcases List.mem_cons.1 mem with rfl | mem
        · exact above higher
        · exact inside ⟨a, mem, higher⟩
      simp [outside, inside, out]

/-- Nothing outside of some trees differs between two views. -/
def Confined (tops : List NodeId) (v w : View) : Prop := outside tops w = outside tops v

namespace Confined

theorem refl (tops : List NodeId) (v : View) : Confined tops v v := rfl

theorem symm (h : Confined tops v w) : Confined tops w v := Eq.symm h

theorem trans (h : Confined tops v w) (k : Confined tops w u) : Confined tops v u :=
  Eq.trans k h

/-- A node outside is the same afterwards, and outside. -/
theorem node (h : Confined tops v w) (node : v x = some n) (out : ¬Inside tops v x) :
    w x = some n ∧ ¬Inside tops w x := by
  rw [← outside_eq_some, h, outside_eq_some]
  exact ⟨node, out⟩

theorem of_node
    (forth : ∀ {x n}, v x = some n → ¬Inside tops v x → w x = some n ∧ ¬Inside tops w x)
    (back : ∀ {x n}, w x = some n → ¬Inside tops w x → v x = some n ∧ ¬Inside tops v x) :
    Confined tops v w := by
  funext x
  refine Option.ext fun n => ?_
  rw [outside_eq_some, outside_eq_some]
  exact ⟨fun h => back h.1 h.2, fun h => forth h.1 h.2⟩

/-- All that is above a node outside is above it afterwards. -/
theorem above (h : Confined tops v w) (out : ¬Inside tops v x) (above : Above v a x) :
    Above w a x := by
  induction above with
  | self => exact .self
  | @step x p n node parent _ ih =>
      exact .step (h.node node out).1 parent (ih fun inside => out (inside.step node parent))

theorem mono (h : Confined tops v w) (sub : tops ⊆ more) : Confined more v w := by
  have forth : ∀ {v w : View}, Confined tops v w → ∀ {x n}, v x = some n → ¬Inside more v x →
      w x = some n ∧ ¬Inside more w x := by
    intro v w h x n node out
    obtain ⟨kept, out'⟩ := h.node node fun inside => out (inside.mono sub)
    refine ⟨kept, ?_⟩
    rintro ⟨a, mem, above⟩
    exact out ⟨a, mem, h.symm.above out' above⟩
  exact of_node (forth h) (forth h.symm)

/-- What is confined to parts of some trees is confined to the trees. -/
theorem lift {parts : List NodeId} (h : Confined parts v w)
    (before : ∀ g ∈ parts, Inside tops v g) (after : ∀ g ∈ parts, Inside tops w g) :
    Confined tops v w := by
  rw [Confined, ← outside_append_of_inside before, ← outside_append_of_inside after]
  exact h.mono (List.subset_append_left ..)

/-- A tree that is there neither before nor after does not count. -/
theorem forget (h : Confined (g :: tops) v w) (fv : Forest v) (fw : Forest w)
    (before : v g = none) (after : w g = none) : Confined tops v w := by
  rw [Confined, ← fv.outside_cons_of_dead before, ← fw.outside_cons_of_dead after]
  exact h

/-- Outside nodes are not touched, and the others stay below their parents or come below one of
the tops. -/
theorem of_steps (fw : Forest w) (off : ∀ x, ¬Inside tops v x → w x = v x)
    (step : ∀ {x n m}, x ∉ tops → Inside tops v x → v x = some n → w x = some m →
      m.parent = n.parent ∨ ∃ q ∈ tops, m.parent = some q) : Confined tops v w := by
  have stays : ∀ {x m}, Inside tops v x → w x = some m → Inside tops w x := by
    rintro x m ⟨a, mem, above⟩ node'
    induction above generalizing m with
    | self => exact ⟨a, mem, .self⟩
    | @step x p n node parent above ih =>
        by_cases top : x ∈ tops
        · exact ⟨x, top, .self⟩
        · rcases step top ⟨a, mem, .step node parent above⟩ node node' with same | ⟨q, listed, new⟩
          · obtain ⟨k, up, -⟩ := fw.parent node' (same.trans parent)
            exact (ih up).step node' (same.trans parent)
          · exact ⟨q, listed, .step node' new .self⟩
  have leaves : ∀ {x n}, v x = some n → ¬Inside tops v x → ¬Inside tops w x := by
    rintro x n node out ⟨a, mem, above⟩
    induction above generalizing n with
    | self => exact out ⟨a, mem, .self⟩
    | @step x p m node' parent _ ih =>
        rw [off x out, node] at node'
        cases node'
        by_cases inside : Inside tops v p
        · exact out (inside.step node parent)
        · obtain ⟨k, up, -⟩ := fw.parent ((off x out).trans node) parent
          exact ih (n := k) ((off p inside).symm.trans up) inside
  refine of_node (fun node out => ⟨(off _ out).trans node, leaves node out⟩) fun node out => ?_
  have kept : ¬Inside tops v _ := fun inside => out (stays inside node)
  exact ⟨(off _ kept).symm.trans node, kept⟩

/-- A new tree has come. -/
theorem of_new (f : Forest v) (fresh : v c = none)
    (kept : ∀ {x n}, v x = some n → w x = some n ∧ ¬Above w c x)
    (new : ∀ {x n}, v x = none → w x = some n → Above w c x) : Confined [c] v w := by
  refine of_node (fun node _ => ?_) fun {x n} node out => ?_
  · rw [inside_singleton]
    exact kept node
  · rw [inside_singleton] at out ⊢
    cases old : v x with
    | none => exact (out (new old node)).elim
    | some k =>
        have same := (kept old).1
        rw [node] at same
        cases same
        refine ⟨rfl, fun above => ?_⟩
        rw [← f.eq_of_above_dead fresh above, fresh] at old
        cases old

/-- The same nodes are above a node whose parent is the same, and outside. -/
theorem above_iff (h : Confined tops v w) (f : Forest v) (node : v x = some n)
    (node' : w x = some m) (same : m.parent = n.parent)
    (out : ∀ p, n.parent = some p → ¬Inside tops v p) : Above w a x ↔ Above v a x := by
  by_cases top : a = x
  · rw [top]
    exact ⟨fun _ => .self, fun _ => .self⟩
  · constructor
    · intro above
      cases parent : m.parent with
      | none => exact (top (above.eq_of_top node' parent)).elim
      | some p =>
          rw [same] at parent
          obtain ⟨k, up, -⟩ := f.parent node parent
          have higher := above.of_parent node' (same.trans parent) top
          exact .step node parent (h.symm.above (h.node up (out p parent)).2 higher)
    · intro above
      cases parent : n.parent with
      | none => exact (top (above.eq_of_top node parent)).elim
      | some p =>
          have higher := above.of_parent node parent top
          exact .step node' (same.trans parent) (h.above (out p parent) higher)

/-- The same nodes are above the top of a tree whose parent is the same. -/
theorem above_top (h : Confined [g] v w) (f : Forest v) (node : v g = some n)
    (node' : w g = some m) (same : m.parent = n.parent) : Above w a g ↔ Above v a g :=
  h.above_iff f node node' same fun _ parent inside =>
    (f.rooted node).not_above_parent node parent (inside_singleton.1 inside)

end Confined

end View

end Stencil
