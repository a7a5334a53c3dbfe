import Stencil.Proofs.Document.Running

/-! # Moving nodes

Putting a node somewhere prunes it from where it is and grafts it where it goes; for a
fragment the same is done to its children. Where the links of a document agree, a move either
changes nothing and is refused, or is exactly that.
-/

namespace Stencil

open Markup

namespace View

variable {v : View}

/-! ## Chains of parents -/

/-- The nodes from a rooted node up to the top. -/
theorem Rooted.exists_chain {x : NodeId} (h : Rooted v x) :
    ∃ chain : List NodeId, (∀ a, a ∈ chain ↔ Above v a x) ∧ chain.Nodup ∧
      (∀ a ∈ chain, v a ≠ none) ∧
      ∀ (d : Document) (a : NodeId) (fuel : Nat), d.view = v → chain.length ≤ fuel →
        d.isAboveWithin a fuel x = .ok (decide (a ∈ chain)) := by
  induction h with
  | @top x n node top =>
      refine ⟨[x], fun a => ?_, by simp, by simp [node], fun d a fuel same long => ?_⟩
      · rw [List.mem_singleton]
        exact ⟨fun same => same ▸ .self, fun above => above.eq_of_top node top⟩
      · obtain ⟨fuel, rfl⟩ : ∃ k, fuel = k + 1 := ⟨fuel - 1, by simp at long; omega⟩
        subst same
        by_cases ha : x = a
        · simp [Document.isAboveWithin, ha]
        · simp [Document.isAboveWithin, ha, Ne.symm ha, Document.node_eq_ok node, top, bind,
            Except.bind, pure, Except.pure]
  | @under x p n node parent above ih =>
      obtain ⟨chain, mem, nodup, live, run⟩ := ih
      have rooted : Rooted v x := .under node parent above
      refine ⟨x :: chain, fun a => ?_, ?_, ?_, fun d a fuel same long => ?_⟩
      · rw [List.mem_cons, mem]
        refine ⟨fun h => h.elim (fun same => same ▸ .self) (.step node parent), fun h => ?_⟩
        by_cases ha : a = x
        · exact .inl ha
        · exact .inr (h.of_parent node parent ha)
      · exact List.nodup_cons.2
          ⟨fun inside => rooted.not_above_parent node parent ((mem x).1 inside), nodup⟩
      · intro a ha
        rcases List.mem_cons.1 ha with rfl | ha
        · simp [node]
        · exact live a ha
      · obtain ⟨fuel, rfl⟩ : ∃ k, fuel = k + 1 := ⟨fuel - 1, by simp at long; omega⟩
        have rest := run d a fuel same (by simpa using long)
        subst same
        by_cases ha : x = a
        · simp [Document.isAboveWithin, ha]
        · simp [Document.isAboveWithin, ha, Ne.symm ha, Document.node_eq_ok node, parent, rest,
            bind, Except.bind]

/-! ## Views of moved nodes -/

/-- The view in which the nodes of `moved` name `parent` as theirs. -/
def adopt (parent : NodeId) (moved : List NodeId) (v : View) : View := fun x =>
  (v x).map fun n => { n with parent := if x ∈ moved then some parent else n.parent }

theorem alter_adopt (parent : NodeId) (moved : List NodeId) (k : Nat) (v : View) :
    alter parent (fun n => { n with children := splice k moved n.children })
        (adopt parent moved v) = graft parent moved k v := by
  funext x
  by_cases hx : x = parent
  · cases node : v x <;> simp [alter, adopt, graft, hx] <;> simp [← hx, node]
  · cases node : v x <;> simp [alter, adopt, graft, hx, node]

theorem filter_of_not_mem {c : NodeId} {cs : List NodeId} (out : c ∉ cs) :
    cs.filter (· ∉ [c]) = cs := by
  refine List.filter_eq_self.2 fun y mem => ?_
  rw [decide_eq_true_iff, List.mem_singleton]
  rintro rfl
  exact out mem

/-- A root is in no list of children. -/
theorem Linked.prune_root (f : Linked v) {c : NodeId} {n : Node} (node : v c = some n)
    (top : n.parent = none) : View.prune [c] v = v := by
  funext x
  cases hx : v x with
  | none => simp [View.prune, hx]
  | some m =>
      have out : c ∉ m.children := fun mem => by
        obtain ⟨k, child, parent⟩ := f.child hx mem
        rw [node] at child
        cases child
        rw [top] at parent
        cases parent
      rw [prune_apply hx, filter_of_not_mem out]
      split
      · rename_i same
        rw [List.mem_singleton.1 same, node] at hx
        cases hx
        rw [← top]
      · rfl

/-- Only the parent of a node has to be changed to prune the node. -/
theorem Linked.prune_child (f : Linked v) {c q : NodeId} {n : Node} (node : v c = some n)
    (parent : n.parent = some q) :
    alter c (fun n => { n with parent := none })
        (alter q (fun n => { n with children := n.children.filter (· != c) }) v) =
      View.prune [c] v := by
  have filters : ∀ cs : List NodeId, cs.filter (· != c) = cs.filter (· ∉ [c]) := fun cs =>
    List.filter_congr fun x _ => by
      by_cases hx : x = c <;> simp [hx]
  funext x
  cases hx : v x with
  | none => simp [alter, View.prune, hx]
  | some m =>
      rw [prune_apply hx]
      by_cases hq : x = q
      · subst hq
        by_cases hc : x = c
        · subst hc
          simp [alter, hx, filters]
        · simp [alter, hx, hc, filters]
      · have out : c ∉ m.children := fun mem => by
          obtain ⟨k, child, up⟩ := f.child hx mem
          rw [node] at child
          cases child
          rw [parent] at up
          cases up
          exact hq rfl
        rw [filter_of_not_mem out]
        by_cases hc : x = c
        · subst hc
          simp [alter, hx, hq]
        · simp [alter, hx, hc, hq]

/-- Only the fragment has to be changed to prune its children. -/
theorem Linked.adopt_empty (f : Linked v) {c : NodeId} {n : Node} (node : v c = some n)
    (parent : NodeId) :
    adopt parent n.children (alter c (fun n => { n with children := [] }) v) =
      adopt parent n.children (View.prune n.children v) := by
  funext x
  cases hx : v x with
  | none => simp [alter, adopt, View.prune, hx]
  | some m =>
      by_cases hc : x = c
      · subst hc
        rw [node] at hx
        cases hx
        have none_kept : n.children.filter (· ∉ n.children) = [] :=
          List.filter_eq_nil_iff.2 fun y mem => by simpa using mem
        simp only [adopt, alter, prune_apply node, node, if_true, Option.map_some, none_kept]
        split <;> rfl
      · have kept : m.children.filter (· ∉ n.children) = m.children :=
          List.filter_eq_self.2 fun y mem => by
            rw [decide_eq_true_iff]
            intro other
            obtain ⟨k, child, up⟩ := f.child hx mem
            obtain ⟨k', child', up'⟩ := f.child node other
            rw [child] at child'
            cases child'
            rw [up] at up'
            cases up'
            exact hc rfl
        simp only [adopt, alter, prune_apply hx, hx, hc, if_false, Option.map_some, kept]
        split <;> rfl

theorem Above.of_prune {cut : List NodeId} {a x : NodeId} (h : Above (View.prune cut v) a x) :
    Above v a x := by
  induction h with
  | self => exact .self
  | step node parent _ ih =>
      obtain ⟨m, old, -, up, -⟩ := prune_eq_some node
      rw [up] at parent
      split at parent
      · cases parent
      · exact .step old parent ih

end View

namespace Document

open Edit View

variable {d : Document}

/-- What is put somewhere for a node: the children of a fragment, or else the node. -/
def insertable (c : NodeId) (n : Node) : List NodeId :=
  match n.data with
  | .fragment => n.children
  | _ => [c]

theorem insertable_fragment {c : NodeId} {n : Node} (h : n.data = .fragment) :
    insertable c n = n.children := by
  simp [insertable, h]

theorem insertable_solid {c : NodeId} {n : Node} (h : n.data ≠ .fragment) :
    insertable c n = [c] := by
  unfold insertable
  split
  · exact (h ‹_›).elim
  · rfl

theorem isAbove_eq {x : NodeId} (h : d.view.Rooted x) (a : NodeId) :
    ∃ b, d.isAbove a x = .ok b ∧ (b = true ↔ d.view.Above a x) := by
  obtain ⟨chain, mem, nodup, live, run⟩ := h.exists_chain
  have bound := length_le_of_live nodup live
  exact ⟨_, run d a _ rfl (by omega), by rw [decide_eq_true_iff, mem]⟩

theorem requireContainer_ok {p : NodeId} {n : Node} (node : d.view p = some n)
    (container : n.data.isContainer = true) : requireContainer p d = .ok () d := by
  unfold requireContainer
  rw [bind_ok (ask_ok (a := n.data) (by simp [data, node_eq_ok node, bind, Except.bind, pure,
    Except.pure]))]
  simp [container]

theorem requireContainer_error {p : NodeId}
    (h : ∀ n, d.view p = some n → n.data.isContainer = false) :
    ∃ e, requireContainer p d = .error e d := by
  unfold requireContainer
  cases node : d.view p with
  | none =>
      exact ⟨_, bind_error (ask_error (by simp [data, node_eq_error node, bind, Except.bind]; rfl))⟩
  | some n =>
      refine ⟨.notAContainer p, ?_⟩
      rw [bind_ok (ask_ok (a := n.data) (by simp [data, node_eq_ok node, bind, Except.bind, pure,
        Except.pure]))]
      simp [h n node]

theorem setParents_ok (p : NodeId) (moved : List NodeId) :
    ∀ d : Document, (∀ c ∈ moved, d.view c ≠ none) →
      ∃ d', (forIn moved PUnit.unit fun id _ => do
          setParent (some p) id
          pure (ForInStep.yield PUnit.unit) : Edit PUnit) d = .ok PUnit.unit d' ∧
        d'.view = adopt p moved d.view := by
  induction moved with
  | nil =>
      intro d _
      refine ⟨d, rfl, ?_⟩
      funext x
      cases node : d.view x <;> simp [adopt, node]
  | cons c moved ih =>
      intro d live
      cases node : d.view c with
      | none => exact (live c (by simp) node).elim
      | some n =>
          have first := modifyNode_ok (fun n => { n with parent := some p }) node
          have view := d.view_modify c fun n => { n with parent := some p }
          obtain ⟨d', run, same⟩ := ih (d.modify c fun n => { n with parent := some p }) (by
            intro x mem
            have := live x (by simp [mem])
            rw [view]
            simp only [alter]
            split <;> simpa using this)
          refine ⟨d', ?_, ?_⟩
          · rw [List.forIn_cons]
            have step : (setParent (some p) c >>= fun _ => pure (ForInStep.yield PUnit.unit)) d =
                .ok (ForInStep.yield PUnit.unit) _ := bind_ok first
            rw [bind_ok step]
            exact run
          · rw [same, view]
            funext x
            by_cases hx : x = c
            · subst hx
              simp [adopt, alter, node]
            · cases hd : d.view x <;> simp [adopt, alter, hx, hd]

/-! ## Taking nodes out -/

theorem parent_eq_ok {c : NodeId} {n : Node} (node : d.view c = some n) :
    d.parent c = .ok n.parent := by
  simp [parent, node_eq_ok node, bind, Except.bind, pure, Except.pure]

theorem children_eq_ok {p : NodeId} {n : Node} (node : d.view p = some n) :
    d.children p = .ok n.children := by
  simp [children, node_eq_ok node, bind, Except.bind, pure, Except.pure]

theorem data_eq_ok {p : NodeId} {n : Node} (node : d.view p = some n) : d.data p = .ok n.data := by
  simp [data, node_eq_ok node, bind, Except.bind, pure, Except.pure]

theorem parent_eq_error {c : NodeId} (node : d.view c = none) :
    d.parent c = .error (.unknownNode c) := by
  simp [parent, node_eq_error node, bind, Except.bind]

theorem children_eq_error {p : NodeId} (node : d.view p = none) :
    d.children p = .error (.unknownNode p) := by
  simp [children, node_eq_error node, bind, Except.bind]

theorem data_eq_error {p : NodeId} (node : d.view p = none) :
    d.data p = .error (.unknownNode p) := by
  simp [data, node_eq_error node, bind, Except.bind]

theorem detach_root {c : NodeId} {n : Node} (node : d.view c = some n) (top : n.parent = none) :
    detach c d = .ok () d := by
  unfold detach
  rw [bind_ok (ask_ok (parent_eq_ok node)), top]
  rfl

theorem detach_child {c q : NodeId} {n m : Node} (node : d.view c = some n)
    (parent : n.parent = some q) (above : d.view q = some m) :
    ∃ d', detach c d = .ok () d' ∧
      d'.view = alter c (fun n => { n with parent := none })
        (alter q (fun n => { n with children := n.children.filter (· != c) }) d.view) := by
  obtain ⟨d₁, first, view₁⟩ :=
    modifyNode_view (fun n => { n with children := n.children.filter (· != c) }) above
  obtain ⟨n', still⟩ : ∃ n', d₁.view c = some n' := by
    rw [view₁]
    simp only [alter]
    split <;> simp [node]
  obtain ⟨d', second, view'⟩ := modifyNode_view (fun n => { n with parent := none }) still
  refine ⟨d', ?_, by rw [view', view₁]⟩
  unfold detach
  rw [bind_ok (ask_ok (parent_eq_ok node)), parent]
  exact (bind_ok first).trans second

theorem detach_error {c : NodeId} (node : d.view c = none) :
    detach c d = .error (.unknownNode c) d := by
  unfold detach
  exact bind_error (ask_error (parent_eq_error node))

/-- Where links agree, every node can be taken out, which prunes it. -/
theorem detach_ok (f : d.view.Linked) {c : NodeId} {n : Node} (node : d.view c = some n) :
    ∃ d', detach c d = .ok () d' ∧ d'.view = View.prune [c] d.view := by
  cases parent : n.parent with
  | none => exact ⟨d, detach_root node parent, (f.prune_root node parent).symm⟩
  | some q =>
      obtain ⟨m, above, -⟩ := f.parent node parent
      obtain ⟨d', run, view⟩ := detach_child node parent above
      exact ⟨d', run, view.trans (f.prune_child node parent)⟩

/-! ## Taking nodes for another place -/

theorem takeFor_fragment {p c : NodeId} {m n : Node} (host : d.view p = some m)
    (container : m.data.isContainer = true) (node : d.view c = some n)
    (fragment : n.data = .fragment) (live : ∀ x ∈ n.children, d.view x ≠ none) :
    ∃ d', takeFor p c d = .ok n.children d' ∧
      d'.view = adopt p n.children (alter c (fun n => { n with children := [] }) d.view) := by
  have emptied := modifyNode_ok (fun n => { n with children := [] }) node
  obtain ⟨d', run, view⟩ := setParents_ok p n.children (d.modify c fun n => { n with children := [] })
    (by
      intro x mem
      have := live x mem
      rw [view_modify]
      simp only [alter]
      split <;> simpa using this)
  refine ⟨d', ?_, by rw [view, view_modify]⟩
  unfold takeFor
  rw [bind_ok (requireContainer_ok host container), bind_ok (ask_ok (node_eq_ok node))]
  simp only [fragment]
  rw [bind_ok (show setChildren c [] d = _ from emptied), bind_ok (pure_run _ _), bind_ok run]
  rfl

theorem takeFor_solid {d₁ : Document} {p c : NodeId} {m n n₁ : Node} (host : d.view p = some m)
    (container : m.data.isContainer = true) (node : d.view c = some n)
    (solid : n.data ≠ .fragment) (rooted : d.view.Rooted p) (apart : ¬d.view.Above c p)
    (detached : detach c d = .ok () d₁) (still : d₁.view c = some n₁) :
    ∃ d', takeFor p c d = .ok [c] d' ∧ d'.view = adopt p [c] d₁.view := by
  obtain ⟨b, asked, above⟩ := isAbove_eq rooted c
  have no : b = false := by simpa [← above] using apart
  subst no
  obtain ⟨d', run, view⟩ := setParents_ok p [c] d₁ (by simp [still])
  refine ⟨d', ?_, view⟩
  unfold takeFor
  rw [bind_ok (requireContainer_ok host container), bind_ok (ask_ok (node_eq_ok node))]
  obtain ⟨data, parent, children⟩ := n
  cases data with
  | fragment => exact (solid rfl).elim
  | element | text | comment | doctype =>
      dsimp only
      rw [bind_ok (ask_ok asked), if_neg (by simp), bind_ok detached, bind_ok (pure_run _ _),
        bind_ok run]
      rfl

theorem takeFor_cycle {p c : NodeId} {m n : Node} (host : d.view p = some m)
    (container : m.data.isContainer = true) (node : d.view c = some n)
    (solid : n.data ≠ .fragment) (rooted : d.view.Rooted p) (above : d.view.Above c p) :
    takeFor p c d = .error (.cycle p c) d := by
  obtain ⟨b, asked, iff⟩ := isAbove_eq rooted c
  have yes : b = true := iff.2 above
  subst yes
  unfold takeFor
  rw [bind_ok (requireContainer_ok host container), bind_ok (ask_ok (node_eq_ok node))]
  obtain ⟨data, parent, children⟩ := n
  cases data with
  | fragment => exact (solid rfl).elim
  | element | text | comment | doctype =>
      dsimp only
      rw [bind_ok (ask_ok asked), if_pos rfl]
      rfl

/-- Where links agree, nodes that are not above their new parent are taken from where they were
and told that parent. -/
theorem takeFor_ok (f : d.view.Linked) {p c : NodeId} {m n : Node} (host : d.view p = some m)
    (container : m.data.isContainer = true) (node : d.view c = some n)
    (solid : n.data ≠ .fragment → ¬d.view.Above c p) :
    ∃ d', takeFor p c d = .ok (insertable c n) d' ∧
      d'.view = adopt p (insertable c n) (View.prune (insertable c n) d.view) := by
  by_cases fragment : n.data = .fragment
  · obtain ⟨d', run, view⟩ := takeFor_fragment host container node fragment fun x mem => by
      obtain ⟨k, child, -⟩ := f.child node mem
      simp [child]
    rw [insertable_fragment fragment]
    exact ⟨d', run, view.trans (f.adopt_empty node p)⟩
  · obtain ⟨d₁, detached, view₁⟩ := detach_ok f node
    obtain ⟨d', run, view⟩ := takeFor_solid host container node fragment (f.rooted host)
      (solid fragment) detached (by rw [view₁]; exact prune_apply node)
    rw [insertable_solid fragment]
    exact ⟨d', run, by rw [view, view₁]⟩

/-- Where links agree, nodes are either refused, and nothing has changed, or taken. -/
theorem takeFor_cases (f : d.view.Linked) (p c : NodeId) :
    (∃ e, takeFor p c d = .error e d) ∨
      ∃ m n, d.view p = some m ∧ m.data.isContainer = true ∧ d.view c = some n ∧
        (n.data ≠ .fragment → ¬d.view.Above c p) := by
  by_cases host : ∃ m, d.view p = some m ∧ m.data.isContainer = true
  · obtain ⟨m, host, container⟩ := host
    cases node : d.view c with
    | none =>
        refine .inl ⟨.unknownNode c, ?_⟩
        unfold takeFor
        rw [bind_ok (requireContainer_ok host container),
          bind_error (ask_error (node_eq_error node))]
    | some n =>
        by_cases cyclic : n.data ≠ .fragment ∧ d.view.Above c p
        · exact .inl ⟨_, takeFor_cycle host container node cyclic.1 (f.rooted host) cyclic.2⟩
        · exact .inr ⟨m, n, host, container, rfl, fun solid above => cyclic ⟨solid, above⟩⟩
  · refine .inl ?_
    obtain ⟨e, run⟩ := requireContainer_error (d := d) (p := p) fun m hm => by
      cases container : m.data.isContainer with
      | false => rfl
      | true => exact (host ⟨m, hm, container⟩).elim
    exact ⟨e, by unfold takeFor; exact bind_error run⟩

end Document

end Stencil
