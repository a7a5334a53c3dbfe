import Stencil.Proofs.Document.Moving

/-! # Insertion and removal

Where the links of a document agree, putting a node behind or before other children is refused
without any change, or prunes the node and grafts it at its place; removing a child prunes it.
-/

namespace Stencil

open Markup

namespace View

variable {v : View}

theorem alter_congr {id : NodeId} {f g : Node → Node} (h : ∀ n, v id = some n → f n = g n) :
    alter id f v = alter id g v := by
  funext x
  by_cases hx : x = id
  · subst hx
    cases node : v x with
    | none => simp [alter, node]
    | some n => simp [alter, node, h n node]
  · rw [alter_of_ne _ _ hx, alter_of_ne _ _ hx]

theorem splice_of_le {k : Nat} {moved cs : List NodeId} (h : cs.length ≤ k) :
    splice k moved cs = cs ++ moved := by
  simp [splice, List.take_of_length_le h, List.drop_eq_nil_of_le h]

theorem adopt_apply {p x : NodeId} {moved : List NodeId} {n : Node} (h : v x = some n) :
    adopt p moved v x =
      some { n with parent := if x ∈ moved then some p else n.parent } := by
  simp [adopt, h]

end View

namespace Document

open Edit View

variable {d : Document}

/-- What insertion does: the nodes are pruned and grafted before the child number `k`. -/
def moved (d : Document) (p c : NodeId) (n : Node) (k : Nat) : View :=
  graft p (insertable c n) k (View.prune (insertable c n) d.view)

/-- The record of a node after an insertion. -/
theorem moved_record {p c x : NodeId} {n l : Node} {k : Nat} (node : d.view x = some l) :
    d.moved p c n k x = some {
      data := l.data
      parent := if x ∈ insertable c n then some p else l.parent
      children := if x = p then splice k (insertable c n) (l.children.filter (· ∉ insertable c n))
        else l.children.filter (· ∉ insertable c n) } := by
  rw [moved, graft_apply (prune_apply node)]
  by_cases mem : x ∈ insertable c n <;> simp [mem]

/-- Nodes that are taken from where they were may be grafted at their new place. -/
theorem graftable (f : d.view.Forest) {p c : NodeId} {m n : Node} (host : d.view p = some m)
    (container : m.data.isContainer = true) (node : d.view c = some n)
    (apart : ¬d.view.Above c p) :
    Graftable (View.prune (insertable c n) d.view) p (insertable c n) := by
  have hosted : ∃ k, View.prune (insertable c n) d.view p = some k ∧ k.data.isContainer = true :=
    ⟨_, prune_apply host, container⟩
  by_cases fragment : n.data = .fragment
  · rw [insertable_fragment fragment] at hosted ⊢
    refine ⟨hosted, f.children_nodup node, fun x mem => ?_, fun x mem above => ?_⟩
    · obtain ⟨k, child, parent⟩ := f.child node mem
      refine ⟨_, prune_apply child, by simp [mem], fun isFragment => ?_⟩
      rw [f.fragment_parent child isFragment] at parent
      cases parent
    · obtain ⟨k, child, parent⟩ := f.child node mem
      exact apart ((Above.step child parent .self).trans above.of_prune)
  · rw [insertable_solid fragment] at hosted ⊢
    refine ⟨hosted, by simp, fun x mem => ?_, fun x mem above => ?_⟩
    · rw [List.mem_singleton] at mem
      subst mem
      exact ⟨_, prune_apply node, by simp, fragment⟩
    · rw [List.mem_singleton] at mem
      subst mem
      exact apart above.of_prune

theorem forest_moved (f : d.view.Forest) {p c : NodeId} {m n : Node} (host : d.view p = some m)
    (container : m.data.isContainer = true) (node : d.view c = some n)
    (apart : ¬d.view.Above c p) (k : Nat) : (d.moved p c n k).Forest :=
  (f.prune _).graft (graftable f host container node apart) k

/-! ## Behind all children -/

theorem append_moved (f : d.view.Linked) {p c : NodeId} {m n : Node} (host : d.view p = some m)
    (container : m.data.isContainer = true) (node : d.view c = some n)
    (solid : n.data ≠ .fragment → ¬d.view.Above c p) :
    ∃ d', append p c d = .ok () d' ∧ d'.view = d.moved p c n m.children.length := by
  obtain ⟨d₁, run, view⟩ := takeFor_ok f host container node solid
  have host₁ : d₁.view p = some _ := view ▸ adopt_apply (prune_apply host)
  obtain ⟨d', last, view'⟩ := modifyNode_view
    (fun k => { k with children := k.children ++ insertable c n }) host₁
  refine ⟨d', ?_, ?_⟩
  · unfold append
    rw [bind_ok run, last]
  · rw [view', moved, ← alter_adopt, ← view]
    refine alter_congr fun k hk => ?_
    rw [host₁] at hk
    cases hk
    rw [splice_of_le (List.length_filter_le _ _)]

theorem append_cases (f : d.view.Linked) (p c : NodeId) :
    (∃ e, append p c d = .error e d) ∨
      ∃ m n d', d.view p = some m ∧ m.data.isContainer = true ∧ d.view c = some n ∧
        (n.data ≠ .fragment → ¬d.view.Above c p) ∧ append p c d = .ok () d' ∧
        d'.view = d.moved p c n m.children.length := by
  rcases takeFor_cases f p c with ⟨e, run⟩ | ⟨m, n, host, container, node, solid⟩
  · exact .inl ⟨e, by unfold append; exact bind_error run⟩
  · obtain ⟨d', run, view⟩ := append_moved f host container node solid
    exact .inr ⟨m, n, d', host, container, node, solid, run, view⟩

/-! ## Before a child -/

theorem place_ok {p c : NodeId} {m : Node} (host : d.view p = some m) (mem : c ∈ m.children) :
    place p c d = .ok (m.children.findIdx (· == c)) d := by
  have found : m.children.findIdx? (· == c) = some (m.children.findIdx (· == c)) :=
    List.findIdx?_eq_some_of_exists ⟨c, mem, by simp⟩
  unfold place
  rw [bind_ok (ask_ok (children_eq_ok host)), found]
  rfl

theorem place_error {p c : NodeId} (h : ∀ m, d.view p = some m → c ∉ m.children) :
    ∃ e, place p c d = .error e d := by
  unfold place
  cases host : d.view p with
  | none => exact ⟨_, bind_error (ask_error (children_eq_error host))⟩
  | some m =>
      have missing : m.children.findIdx? (· == c) = none :=
        List.findIdx?_eq_none_iff.2 fun x mem => by
          rw [beq_eq_false_iff_ne]
          rintro rfl
          exact h m host mem
      refine ⟨.notAChild p c, ?_⟩
      rw [bind_ok (ask_ok (children_eq_ok host)), missing]
      rfl

theorem discard_ok {α : Type} {e : Edit α} {a : α} {d' : Document} (h : e d = .ok a d') :
    (discard e : Edit PUnit) d = .ok PUnit.unit d' := by
  simp [discard, Functor.discard, Functor.mapConst, Function.comp, EStateM.map, h]

theorem discard_error {α : Type} {e : Edit α} {x : DomError} {d' : Document}
    (h : e d = .error x d') : (discard e : Edit PUnit) d = .error x d' := by
  simp [discard, Functor.discard, Functor.mapConst, Function.comp, EStateM.map, h]

/-- Whether an insertion before a child comes to the point where nodes are moved. -/
def Inserts (d : Document) (p c r : NodeId) : Prop :=
  c ≠ r ∧ ∃ m, d.view p = some m ∧ r ∈ m.children

/-- The child before which nodes are put is none of them. -/
theorem not_mem_insertable (f : d.view.Linked) {p c r : NodeId} {m n : Node}
    (host : d.view p = some m) (mem : r ∈ m.children) (node : d.view c = some n) (other : c ≠ r)
    (apart : n.data = .fragment → c ≠ p) : r ∉ insertable c n := by
  by_cases fragment : n.data = .fragment
  · rw [insertable_fragment fragment]
    intro inside
    obtain ⟨k, child, up⟩ := f.child host mem
    obtain ⟨k', child', up'⟩ := f.child node inside
    rw [child] at child'
    cases child'
    rw [up] at up'
    cases up'
    exact apart fragment rfl
  · rw [insertable_solid fragment]
    simpa using fun h => other h.symm

theorem insertBefore_moved (f : d.view.Linked) {p c r : NodeId} {m n : Node} (host : d.view p = some m)
    (container : m.data.isContainer = true) (mem : r ∈ m.children) (node : d.view c = some n)
    (solid : n.data ≠ .fragment → ¬d.view.Above c p) (other : c ≠ r) (stays : r ∉ insertable c n) :
    ∃ d', insertBefore p c r d = .ok () d' ∧ d'.view =
      d.moved p c n ((m.children.filter (· ∉ insertable c n)).findIdx (· == r)) := by
  obtain ⟨d₁, run, view⟩ := takeFor_ok f host container node solid
  have host₁ : d₁.view p = some _ := view ▸ adopt_apply (prune_apply host)
  have placed₁ := place_ok host₁
    (List.mem_filter.2 ⟨mem, by simpa using stays⟩ : r ∈ m.children.filter (· ∉ insertable c n))
  generalize (m.children.filter (· ∉ insertable c n)).findIdx (· == r) = i at placed₁
  obtain ⟨d', last, view'⟩ := modifyNode_view
    (fun k => { k with children := splice i (insertable c n) k.children }) host₁
  refine ⟨d', ?_, ?_⟩
  · simp only [insertBefore, other, if_false]
    rw [bind_ok (discard_ok (place_ok host mem)), bind_ok run, bind_ok placed₁]
    exact last
  · rw [view', view, alter_adopt, moved]

theorem insertBefore_cases (f : d.view.Linked) (p c r : NodeId)
    (apart : d.Inserts p c r → ∀ n, d.view c = some n → n.data = .fragment → c ≠ p) :
    (∃ e, insertBefore p c r d = .error e d) ∨ (c = r ∧ insertBefore p c r d = .ok () d) ∨
      ∃ m n k d', d.Inserts p c r ∧ d.view p = some m ∧ m.data.isContainer = true ∧
        d.view c = some n ∧ (n.data ≠ .fragment → ¬d.view.Above c p) ∧ r ∈ m.children ∧
        r ∉ insertable c n ∧
        insertBefore p c r d = .ok () d' ∧ d'.view = d.moved p c n k ∧
        k = (m.children.filter (· ∉ insertable c n)).findIdx (· == r) := by
  by_cases same : c = r
  · exact .inr (.inl ⟨same, by simp [insertBefore, same]⟩)
  · by_cases there : ∃ m, d.view p = some m ∧ r ∈ m.children
    · obtain ⟨m, host, mem⟩ := there
      rcases takeFor_cases f p c with ⟨e, run⟩ | ⟨m', n, host', container, node, solid⟩
      · refine .inl ⟨e, ?_⟩
        simp only [insertBefore, same, if_false]
        rw [bind_ok (discard_ok (place_ok host mem)), bind_error run]
      · rw [host] at host'
        cases host'
        have inserts : d.Inserts p c r := ⟨same, m, host, mem⟩
        have stays := not_mem_insertable f host mem node same (apart inserts n node)
        obtain ⟨d', run, view⟩ := insertBefore_moved f host container mem node solid same stays
        exact .inr (.inr ⟨m, n, _, d', inserts, host, container, node, solid, mem, stays, run, view,
          rfl⟩)
    · obtain ⟨e, run⟩ := place_error (d := d) (p := p) (c := r) fun m host mem => there ⟨m, host, mem⟩
      refine .inl ⟨e, ?_⟩
      simp only [insertBefore, same, if_false]
      exact bind_error (discard_error run)

/-! ## Removal -/

theorem eraseIdx_findIdx {c : NodeId} {cs : List NodeId} (nodup : cs.Nodup) (mem : c ∈ cs) :
    cs.eraseIdx (cs.findIdx (· == c)) = cs.filter (· != c) := by
  have found : cs.findIdx? (· == c) = some (cs.findIdx (· == c)) :=
    List.findIdx?_eq_some_of_exists ⟨c, mem, by simp⟩
  rw [← nodup.erase_eq_filter, List.erase_eq_eraseP', List.eraseP_eq_eraseIdx, found]

/-- A listed child can be taken out of any document. -/
theorem remove_listed {p c : NodeId} {m n : Node} (host : d.view p = some m) (mem : c ∈ m.children)
    (node : d.view c = some n) :
    ∃ d', remove p c d = .ok () d' ∧
      d'.view = alter c (fun n => { n with parent := none })
        (alter p (fun n => { n with
          children := n.children.eraseIdx (m.children.findIdx (· == c)) }) d.view) := by
  obtain ⟨d₁, first, view₁⟩ := modifyNode_view
    (fun n => { n with children := n.children.eraseIdx (m.children.findIdx (· == c)) }) host
  obtain ⟨n', still⟩ : ∃ n', d₁.view c = some n' := by
    rw [view₁]
    simp only [alter]
    split <;> simp [node]
  obtain ⟨d', second, view'⟩ := modifyNode_view (fun n => { n with parent := none }) still
  refine ⟨d', ?_, by rw [view', view₁]⟩
  unfold remove
  rw [bind_ok (place_ok host mem), bind_ok first]
  exact second

theorem remove_ok (f : d.view.Linked) {p c : NodeId} {m : Node} (host : d.view p = some m)
    (mem : c ∈ m.children) :
    ∃ d', remove p c d = .ok () d' ∧ d'.view = View.prune [c] d.view := by
  obtain ⟨n, node, parent⟩ := f.child host mem
  obtain ⟨d', run, view⟩ := remove_listed host mem node
  refine ⟨d', run, ?_⟩
  rw [view, ← f.prune_child node parent]
  congr 1
  refine alter_congr fun k hk => ?_
  rw [host] at hk
  cases hk
  rw [eraseIdx_findIdx (f.children_nodup host) mem]

theorem remove_error {p c : NodeId} (h : ∀ m, d.view p = some m → c ∉ m.children) :
    ∃ e, remove p c d = .error e d := by
  obtain ⟨e, run⟩ := place_error h
  exact ⟨e, by unfold remove; exact bind_error run⟩

end Document

end Stencil
