import Stencil.Proofs.Document.Operation

/-! # Placement

A node is put behind all children of another, before one of them or in place of one. In a
document whose links agree this succeeds exactly where the node is admitted. Afterwards the
nodes that are moved stand at the spot as one run, and all else is as it was.
-/

namespace Stencil

open Markup

/-- A spot among the children of a node. -/
inductive Spot where
  /-- Behind all children. -/
  | last
  /-- Before a child. -/
  | before (sibling : NodeId)
  /-- In place of a child. -/
  | instead (sibling : NodeId)
  deriving DecidableEq, Repr

namespace Spot

open Document View

/-- The child that marks the spot, if one does. -/
def sibling? : Spot → Option NodeId
  | last => none
  | before r => some r
  | instead r => some r

/-- The edit that puts a node at the spot. -/
def put (p c : NodeId) : Spot → Edit Unit
  | last => append p c
  | before r => insertBefore p c r
  | instead r => replace p c r

/-- `new` is `old` with the nodes of `moved` at the spot as one run. -/
def Fills (moved old new : List NodeId) : Spot → Prop
  | last => new = old ++ moved
  | before r => ∃ front back, old = front ++ r :: back ∧ new = front ++ moved ++ r :: back
  | instead r => ∃ front back, old = front ++ r :: back ∧ new = front ++ moved ++ back

/-- The spot is one among the children of `p`, and `c` may come below `p`. -/
structure Admits (v : View) (p c : NodeId) (spot : Spot) : Prop where
  host : ∃ m, v p = some m ∧ m.data.isContainer = true ∧
    ∀ r, spot.sibling? = some r → r ∈ m.children
  child : ∃ n, v c = some n ∧ (n.data ≠ .fragment → ¬v.Above c p)

end Spot

namespace View

open Document

/-- What is to be seen when `c`, which was the node `n`, has been put at a spot among the
children of `p`, and what is as it was. -/
structure Placed (v w : View) (p c : NodeId) (n : Node) (spot : Spot) : Prop where
  host : ∃ m m', v p = some m ∧ w p = some m' ∧
    spot.Fills (insertable c n) (m.children.filter (· ∉ insertable c n)) m'.children
  adopted : ∀ x ∈ insertable c n, ∃ k, w x = some k ∧ k.parent = some p
  /-- A fragment has given its children away. -/
  emptied : n.data = .fragment → ∃ k, w c = some k ∧ k.children = []
  replaced : ∀ r, spot = .instead r → ∃ k, w r = some k ∧ k.parent = none
  /-- Another parent that the node had has lost this node only. -/
  former : n.data ≠ .fragment → ∀ q m, n.parent = some q → q ≠ p → v q = some m →
    ∃ k, w q = some k ∧ k.children = m.children.filter (· ≠ c)
  data : ∀ x, (w x).map Node.data = (v x).map Node.data
  parents : ∀ x, x ∉ insertable c n → spot ≠ .instead x →
    (w x).map Node.parent = (v x).map Node.parent
  children : ∀ x, x ≠ p → (n.data = .fragment → x ≠ c) →
    (n.data ≠ .fragment → n.parent ≠ some x) → (w x).map Node.children = (v x).map Node.children

variable {v w : View} {p c : NodeId} {m n : Node} {spot : Spot}

theorem Linked.insertable_live (f : v.Linked) (node : v c = some n) :
    ∀ x ∈ insertable c n, ∃ k, v x = some k := by
  intro x mem
  by_cases fragment : n.data = .fragment
  · rw [insertable_fragment fragment] at mem
    obtain ⟨k, child, -⟩ := f.child node mem
    exact ⟨k, child⟩
  · rw [insertable_solid fragment, List.mem_singleton] at mem
    exact ⟨n, mem ▸ node⟩

/-- The nodes that are moved are listed where they come from and nowhere else. -/
theorem Linked.not_mem_of_insertable (f : v.Linked) (node : v c = some n) {x : NodeId} {l : Node}
    (there : v x = some l) (fragment : n.data = .fragment → x ≠ c)
    (solid : n.data ≠ .fragment → n.parent ≠ some x) : ∀ u ∈ l.children, u ∉ insertable c n := by
  intro u listed mem
  obtain ⟨k, child, up⟩ := f.child there listed
  by_cases kind : n.data = .fragment
  · rw [insertable_fragment kind] at mem
    obtain ⟨k', child', up'⟩ := f.child node mem
    rw [child] at child'
    cases child'
    rw [up] at up'
    cases up'
    exact fragment kind rfl
  · rw [insertable_solid kind, List.mem_singleton] at mem
    subst mem
    rw [node] at child
    cases child
    exact solid kind up

/-- Nodes are placed when every node has the record that it is to have. -/
theorem placed_of_records (f : v.Linked) (host : v p = some m) (node : v c = some n)
    (apart : n.data = .fragment → c ≠ p) (kids : List NodeId)
    (fills : spot.Fills (insertable c n) (m.children.filter (· ∉ insertable c n)) kids)
    (sibling : ∀ r, spot = .instead r → r ∈ m.children ∧ r ∉ insertable c n)
    (dead : ∀ x, v x = none → w x = none)
    (record : ∀ x l, v x = some l → w x = some {
      data := l.data
      parent := if x ∈ insertable c n then some p else if spot = .instead x then none else l.parent
      children := if x = p then kids else l.children.filter (· ∉ insertable c n) }) :
    Placed v w p c n spot where
  host := ⟨m, _, host, record p m host, by simpa using fills⟩
  adopted x mem := by
    obtain ⟨k, there⟩ := f.insertable_live node x mem
    exact ⟨_, record x k there, if_pos mem⟩
  emptied fragment := by
    refine ⟨_, record c n node, ?_⟩
    rw [if_neg (apart fragment), insertable_fragment fragment]
    exact List.filter_eq_nil_iff.2 fun u mem => by simpa using mem
  replaced r marks := by
    obtain ⟨listed, out⟩ := sibling r marks
    obtain ⟨k, child, -⟩ := f.child host listed
    exact ⟨_, record r k child, by rw [if_neg out, if_pos marks]⟩
  former solid q k _ other there := by
    refine ⟨_, record q k there, ?_⟩
    rw [if_neg other, insertable_solid solid]
    exact List.filter_congr fun u _ => by simp
  data x := by
    cases there : v x with
    | none => rw [dead x there]
    | some l => rw [record x l there]; rfl
  parents x out kept := by
    cases there : v x with
    | none => rw [dead x there]
    | some l => simp [record x l there, out, kept]
  children x other fragment solid := by
    cases there : v x with
    | none => rw [dead x there]
    | some l =>
        have whole : l.children.filter (· ∉ insertable c n) = l.children :=
          List.filter_eq_self.2 fun u mem =>
            decide_eq_true (f.not_mem_of_insertable node there fragment solid u mem)
        rw [record x l there, Option.map_some, Option.map_some, if_neg other, whole]

end View

namespace Document

open Edit View Spot

variable {d d' : Document} {p c r : NodeId} {m n : Node}

/-! ## The three spots -/

theorem moved_dead {k : Nat} {x : NodeId} (dead : d.view x = none) : d.moved p c n k x = none := by
  simp [moved, graft, View.prune, dead]

theorem append_placed (f : d.view.Linked) (host : d.view p = some m) (node : d.view c = some n)
    (apart : n.data = .fragment → c ≠ p) (view : d'.view = d.moved p c n m.children.length) :
    Placed d.view d'.view p c n .last := by
  refine placed_of_records f host node apart (splice m.children.length (insertable c n)
    (m.children.filter (· ∉ insertable c n))) ?_ nofun ?_ ?_
  · exact splice_of_le (List.length_filter_le _ _)
  · exact fun x dead => view ▸ moved_dead dead
  · intro x l there
    rw [view, moved_record there]
    by_cases same : x = p
    · subst same
      rw [host] at there
      cases there
      simp
    · simp [same]

theorem findIdx_cut {front back : List NodeId} (out : r ∉ front) :
    (front ++ r :: back).findIdx (· == r) = front.length := by
  have none_before : front.findIdx (· == r) = front.length :=
    List.findIdx_eq_length.2 fun x mem => by
      rw [beq_eq_false_iff_ne]
      rintro rfl
      exact out mem
  rw [List.findIdx_append, none_before, if_neg (Nat.lt_irrefl _), List.findIdx_cons]
  simp

/-- The child before which nodes are put splits the other children. -/
theorem exists_cut (mem : r ∈ m.children) (stays : r ∉ insertable c n) :
    ∃ front back, r ∉ front ∧ m.children.filter (· ∉ insertable c n) = front ++ r :: back ∧
      splice ((m.children.filter (· ∉ insertable c n)).findIdx (· == r)) (insertable c n)
        (m.children.filter (· ∉ insertable c n)) = front ++ insertable c n ++ r :: back := by
  have kept : r ∈ m.children.filter (· ∉ insertable c n) :=
    List.mem_filter.2 ⟨mem, by simpa using stays⟩
  obtain ⟨front, back, whole, out⟩ := List.eq_append_cons_of_mem kept
  refine ⟨front, back, out, whole, ?_⟩
  rw [whole, findIdx_cut out, splice, List.take_left, List.drop_left]

theorem insertBefore_placed (f : d.view.Linked) (host : d.view p = some m)
    (mem : r ∈ m.children) (node : d.view c = some n) (apart : n.data = .fragment → c ≠ p)
    (stays : r ∉ insertable c n) (view : d'.view =
      d.moved p c n ((m.children.filter (· ∉ insertable c n)).findIdx (· == r))) :
    Placed d.view d'.view p c n (.before r) := by
  obtain ⟨front, back, -, whole, spliced⟩ := exists_cut (n := n) mem stays
  refine placed_of_records f host node apart _ ⟨front, back, whole, spliced⟩ nofun ?_ ?_
  · exact fun x dead => view ▸ moved_dead dead
  · intro x l there
    rw [view, moved_record there]
    by_cases same : x = p
    · subst same
      rw [host] at there
      cases there
      simp
    · simp [same]

/-- The child in whose place nodes are put goes when they stand before it. -/
theorem replace_placed (f : d.view.Linked) (host : d.view p = some m)
    (container : m.data.isContainer = true) (mem : r ∈ m.children) (node : d.view c = some n)
    (solid : n.data ≠ .fragment → ¬d.view.Above c p) (other : c ≠ r)
    (apart : n.data = .fragment → c ≠ p) (stays : r ∉ insertable c n) :
    ∃ d', replace p c r d = .ok () d' ∧ Placed d.view d'.view p c n (.instead r) := by
  obtain ⟨d₁, inserted, view₁⟩ := insertBefore_moved f host container mem node solid other stays
  obtain ⟨front, back, out, whole, spliced⟩ := exists_cut (n := n) mem stays
  obtain ⟨k, child, up⟩ := f.child host mem
  have below : r ≠ p := by
    rintro rfl
    exact (f.rooted child).not_above_parent child up .self
  have host₁ : d₁.view p = some _ := view₁ ▸ moved_record host
  have child₁ : d₁.view r = some _ := view₁ ▸ moved_record child
  obtain ⟨d', removed, view⟩ := remove_listed (c := r) host₁ (by rw [if_pos rfl, spliced]; simp) child₁
  refine ⟨d', ?_, ?_⟩
  · simp only [replace, other, if_false]
    exact (bind_ok inserted).trans removed
  · have away : r ∉ front ++ insertable c n := by simp [out, stays]
    refine placed_of_records f host node apart (front ++ insertable c n ++ back)
      ⟨front, back, whole, rfl⟩ ?_ ?_ ?_
    · rintro _ ⟨⟩
      exact ⟨mem, stays⟩
    · intro x dead
      have dead₁ : d₁.view x = none := view₁ ▸ moved_dead dead
      simp [view, alter, dead₁]
    · intro x l there
      have there₁ : d₁.view x = some _ := view₁ ▸ moved_record there
      by_cases hp : x = p
      · subst hp
        rw [host] at there
        cases there
        have erased : (front ++ insertable c n ++ r :: back).eraseIdx
            (front ++ insertable c n).length = front ++ insertable c n ++ back := by
          rw [List.eraseIdx_append_of_length_le (Nat.le_refl _), Nat.sub_self]
          rfl
        have marked : Spot.instead r ≠ .instead x := by simpa using below
        rw [view, alter_of_ne _ _ below.symm, alter_self _ there₁]
        simp only [if_true, spliced, findIdx_cut away, erased, if_neg marked]
      · by_cases hr : x = r
        · subst hr
          rw [view, alter_self _ ((alter_of_ne _ _ hp).trans there₁)]
          simp [hp, stays]
        · have marked : Spot.instead r ≠ .instead x := by simpa using Ne.symm hr
          rw [view, alter_of_ne _ _ hr, alter_of_ne _ _ hp, there₁]
          simp only [if_neg hp, if_neg marked]

end Document

namespace Spot

open Document View

variable {d : Document} {p c : NodeId} {spot : Spot}

/-- Where a node is admitted it is placed. -/
theorem Admits.placed (h : spot.Admits d.view p c) (f : d.view.Linked)
    (other : spot.sibling? ≠ some c)
    (apart : ∀ n, d.view c = some n → n.data = .fragment → ¬d.view.Above c p) :
    ∃ d' n, spot.put p c d = .ok () d' ∧ d.view c = some n ∧ Placed d.view d'.view p c n spot := by
  obtain ⟨⟨m, host, container, listed⟩, n, node, solid⟩ := h
  have distinct : n.data = .fragment → c ≠ p := by
    rintro fragment rfl
    exact apart n node fragment .self
  cases spot with
  | last =>
      obtain ⟨d', run, view⟩ := append_moved f host container node solid
      exact ⟨d', n, run, node, append_placed f host node distinct view⟩
  | before r =>
      have ne : c ≠ r := fun same => other (same ▸ rfl)
      have stays := not_mem_insertable f host (listed r rfl) node ne distinct
      obtain ⟨d', run, view⟩ :=
        insertBefore_moved f host container (listed r rfl) node solid ne stays
      exact ⟨d', n, run, node,
        insertBefore_placed f host (listed r rfl) node distinct stays view⟩
  | instead r =>
      have ne : c ≠ r := fun same => other (same ▸ rfl)
      have stays := not_mem_insertable f host (listed r rfl) node ne distinct
      obtain ⟨d', run, placed⟩ :=
        replace_placed f host container (listed r rfl) node solid ne distinct stays
      exact ⟨d', n, run, node, placed⟩

/-- Where a node is put it is admitted. -/
theorem admits_of_put (f : d.view.Linked) (other : spot.sibling? ≠ some c)
    (apart : ∀ n, d.view c = some n → n.data = .fragment → ¬d.view.Above c p) {d' : Document}
    (run : spot.put p c d = .ok () d') : spot.Admits d.view p c := by
  have distinct : ∀ n, d.view c = some n → n.data = .fragment → c ≠ p := by
    rintro n node fragment rfl
    exact apart n node fragment .self
  have before {r : NodeId} (ne : c ≠ r) {d₁ : Document} (inserted : insertBefore p c r d = .ok () d₁) :
      ∃ m, d.view p = some m ∧ m.data.isContainer = true ∧ r ∈ m.children ∧
        ∃ n, d.view c = some n ∧ (n.data ≠ .fragment → ¬d.view.Above c p) := by
    rcases insertBefore_cases f p c r fun _ => distinct with ⟨e, refused⟩ | ⟨same, -⟩ |
      ⟨m, n, k, d₂, -, host, container, node, solid, mem, -⟩
    · rw [refused] at inserted
      cases inserted
    · exact (ne same).elim
    · exact ⟨m, host, container, mem, n, node, solid⟩
  cases spot with
  | last =>
      rcases append_cases f p c with ⟨e, refused⟩ | ⟨m, n, d₁, host, container, node, solid, -⟩
      · rw [show append p c d = .ok () d' from run] at refused
        cases refused
      · exact ⟨⟨m, host, container, nofun⟩, n, node, solid⟩
  | before r =>
      obtain ⟨m, host, container, mem, child⟩ := before (fun same => other (same ▸ rfl)) run
      exact ⟨⟨m, host, container, by rintro _ ⟨⟩; exact mem⟩, child⟩
  | instead r =>
      have ne : c ≠ r := fun same => other (same ▸ rfl)
      simp only [put, replace, ne, if_false] at run
      obtain ⟨_, d₁, inserted, -⟩ := of_bind_ok run
      obtain ⟨m, host, container, mem, child⟩ := before ne inserted
      exact ⟨⟨m, host, container, by rintro _ ⟨⟩; exact mem⟩, child⟩

/-- Where links agree, a node can be put at a spot exactly if it is admitted there, and then it is
placed. -/
theorem put_spec (f : d.view.Linked) (p c : NodeId) (spot : Spot)
    (other : spot.sibling? ≠ some c)
    (apart : ∀ n, d.view c = some n → n.data = .fragment → ¬d.view.Above c p) :
    ((∃ d', spot.put p c d = .ok () d') ↔ spot.Admits d.view p c) ∧
      ∀ d', spot.put p c d = .ok () d' →
        ∃ n, d.view c = some n ∧ Placed d.view d'.view p c n spot := by
  refine ⟨⟨fun ⟨d', run⟩ => admits_of_put f other apart run, fun admits => ?_⟩, fun d' run => ?_⟩
  · obtain ⟨d', -, run, -⟩ := admits.placed f other apart
    exact ⟨d', run⟩
  · obtain ⟨d₁, n, run₁, node, placed⟩ := (admits_of_put f other apart run).placed f other apart
    rw [run] at run₁
    cases run₁
    exact ⟨n, node, placed⟩

/-- The children of a fragment take the place of the first of two texts. -/
theorem put_spec_fragment :
    let d := Operation.run { name := "page", strict := true } [.createElement "p",
      .createText "a", .createText "b", .append ⟨0⟩ ⟨1⟩, .append ⟨0⟩ ⟨2⟩, .createFragment,
      .createComment "c", .append ⟨3⟩ ⟨4⟩]
    let spot := Spot.instead ⟨1⟩
    (d.view.Linked ∧ spot.sibling? ≠ some ⟨3⟩ ∧
        ∀ n, d.view ⟨3⟩ = some n → n.data = .fragment → ¬d.view.Above ⟨3⟩ ⟨0⟩) ∧
      (∃ d', spot.put ⟨0⟩ ⟨3⟩ d = .ok () d') ∧
      ((∃ d', spot.put ⟨0⟩ ⟨3⟩ d = .ok () d') ↔ spot.Admits d.view ⟨0⟩ ⟨3⟩) ∧
        ∀ d', spot.put ⟨0⟩ ⟨3⟩ d = .ok () d' →
          ∃ n, d.view ⟨3⟩ = some n ∧ Placed d.view d'.view ⟨0⟩ ⟨3⟩ n spot := by
  intro d spot
  have untangled : Operation.Untangled { name := "page", strict := true } [.createElement "p",
      .createText "a", .createText "b", .append ⟨0⟩ ⟨1⟩, .append ⟨0⟩ ⟨2⟩, .createFragment,
      .createComment "c", .append ⟨3⟩ ⟨4⟩] := by
    refine ⟨id, id, id, ?_, ?_, id, id, ?_, trivial⟩
    all_goals
      rintro ⟨-, ⟨n, node, fragment⟩, -⟩
      cases node
      cases fragment
  have linked : d.view.Linked :=
    (Operation.sound_run (sound_empty "page" true) _ untangled).forest.linked
  have other : spot.sibling? ≠ some ⟨3⟩ := by decide
  have apart : ∀ n, d.view ⟨3⟩ = some n → n.data = .fragment → ¬d.view.Above ⟨3⟩ ⟨0⟩ := by
    intro n _ _ above
    have same := above.eq_of_top rfl rfl
    cases same
  exact ⟨⟨linked, other, apart⟩, ⟨_, rfl⟩, put_spec linked ⟨0⟩ ⟨3⟩ spot other apart⟩

end Spot

end Stencil
