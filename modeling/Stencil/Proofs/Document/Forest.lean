import Stencil.Proofs.Document.Slots

/-! # Forests

The links of a document form a forest when the two directions agree, no node is its own
descendant and the data fit the links. A view is cut, grafted, thinned and extended as a
whole; each of these changes keeps forests.
-/

namespace Stencil

open Markup

namespace View

variable {v w : View}

/-- The chain of parents of a node comes to an end at a node without parent. -/
inductive Rooted (v : View) : NodeId → Prop where
  | top {x : NodeId} {n : Node} (node : v x = some n) (parent : n.parent = none) : Rooted v x
  | under {x p : NodeId} {n : Node} (node : v x = some n) (parent : n.parent = some p)
      (above : Rooted v p) : Rooted v x

/-- A node is another one or one of the nodes above it. -/
inductive Above (v : View) (a : NodeId) : NodeId → Prop where
  | self : Above v a a
  | step {x p : NodeId} {n : Node} (node : v x = some n) (parent : n.parent = some p)
      (above : Above v a p) : Above v a x

/-- What the attributes of a node promise: no name occurs twice. -/
def AttributesDistinct (data : NodeData) : Prop := (data.attributes.map Prod.fst).Nodup

/-- The links of both directions agree, chains of parents end, fragments stand alone, only
containers have children, and the attribute names of an element are distinct. -/
structure Forest (v : View) : Prop where
  /-- Every listed child is there and names the node that lists it as its parent. -/
  child : ∀ {p c : NodeId} {n : Node}, v p = some n → c ∈ n.children →
    ∃ m, v c = some m ∧ m.parent = some p
  /-- Every recorded parent is there and lists the node. -/
  parent : ∀ {c p : NodeId} {m : Node}, v c = some m → m.parent = some p →
    ∃ n, v p = some n ∧ c ∈ n.children
  /-- No child is listed twice. -/
  children_nodup : ∀ {p : NodeId} {n : Node}, v p = some n → n.children.Nodup
  rooted : ∀ {x : NodeId} {n : Node}, v x = some n → Rooted v x
  fragment_parent : ∀ {x : NodeId} {n : Node}, v x = some n → n.data = .fragment → n.parent = none
  container : ∀ {x : NodeId} {n : Node}, v x = some n → n.children ≠ [] →
    n.data.isContainer = true
  attributes : ∀ {x : NodeId} {n : Node}, v x = some n → AttributesDistinct n.data

/-- The links of both directions agree and chains of parents end, whatever the data are. -/
structure Linked (v : View) : Prop where
  child : ∀ {p c : NodeId} {n : Node}, v p = some n → c ∈ n.children →
    ∃ m, v c = some m ∧ m.parent = some p
  parent : ∀ {c p : NodeId} {m : Node}, v c = some m → m.parent = some p →
    ∃ n, v p = some n ∧ c ∈ n.children
  children_nodup : ∀ {p : NodeId} {n : Node}, v p = some n → n.children.Nodup
  rooted : ∀ {x : NodeId} {n : Node}, v x = some n → Rooted v x

theorem Forest.linked (f : Forest v) : Linked v :=
  ⟨f.child, f.parent, f.children_nodup, f.rooted⟩

theorem forest_empty : Forest fun _ => none where
  child h := by simp at h
  parent h := by simp at h
  children_nodup h := by simp at h
  rooted h := by simp at h
  fragment_parent h := by simp at h
  container h := by simp at h
  attributes h := by simp at h

namespace Above

theorem trans {a b c : NodeId} (hab : Above v a b) (hbc : Above v b c) : Above v a c := by
  induction hbc with
  | self => exact hab
  | step node parent _ ih => exact .step node parent ih

theorem eq_of_top {a x : NodeId} {n : Node} (h : Above v a x) (node : v x = some n)
    (top : n.parent = none) : a = x := by
  cases h with
  | self => rfl
  | step node' parent _ =>
      rw [node] at node'
      cases node'
      rw [top] at parent
      cases parent

/-- The node above is reached from the parent, if there is one. -/
theorem of_parent {a x p : NodeId} {n : Node} (h : Above v a x) (node : v x = some n)
    (parent : n.parent = some p) (ne : a ≠ x) : Above v a p := by
  cases h with
  | self => exact (ne rfl).elim
  | step node' parent' above =>
      rw [node] at node'
      cases node'
      rw [parent] at parent'
      cases parent'
      exact above

end Above

/-- No node is above its own parent. -/
theorem Rooted.not_above_parent {x p : NodeId} {n : Node} (rooted : Rooted v x)
    (node : v x = some n) (parent : n.parent = some p) : ¬Above v x p := by
  induction rooted generalizing n p with
  | top node' top =>
      rw [node] at node'
      cases node'
      rw [top] at parent
      cases parent
  | @under y q m node' parent' above ih =>
      rw [node] at node'
      cases node'
      rw [parent] at parent'
      cases parent'
      intro cyclic
      cases above with
      | top nodep topp =>
          rw [← cyclic.eq_of_top nodep topp, node] at nodep
          cases nodep
          rw [topp] at parent
          cases parent
      | under nodep parentp _ =>
          refine ih nodep parentp ((Above.step node parent .self).trans ?_)
          by_cases same : y = q
          · rw [← same, node] at nodep
            cases nodep
            rw [parent] at parentp
            cases parentp
            exact same ▸ .self
          · exact cyclic.of_parent nodep parentp same

/-! ## Cutting -/

/-- The view in which the nodes of `cut` have no parent. -/
def prune (cut : List NodeId) (v : View) : View := fun x =>
  (v x).map fun n =>
    { n with
      parent := if x ∈ cut then none else n.parent
      children := n.children.filter (· ∉ cut) }

theorem prune_eq_some {cut : List NodeId} {x : NodeId} {n : Node}
    (h : prune cut v x = some n) :
    ∃ m, v x = some m ∧ n.data = m.data ∧ (n.parent = if x ∈ cut then none else m.parent) ∧
      n.children = m.children.filter (· ∉ cut) := by
  obtain ⟨m, node, rfl⟩ := Option.map_eq_some_iff.1 h
  exact ⟨m, node, rfl, rfl, rfl⟩

theorem prune_apply {cut : List NodeId} {x : NodeId} {n : Node} (h : v x = some n) :
    prune cut v x = some { n with
      parent := if x ∈ cut then none else n.parent
      children := n.children.filter (· ∉ cut) } := by
  simp [prune, h]

theorem Rooted.prune {cut : List NodeId} {x : NodeId} (h : Rooted v x) :
    Rooted (View.prune cut v) x := by
  induction h with
  | top node parent => exact .top (prune_apply node) (by simp [parent])
  | @under x p n node parent _ ih =>
      by_cases hx : x ∈ cut
      · exact .top (prune_apply node) (by simp [hx])
      · exact .under (prune_apply node) (by simpa [hx] using parent) ih

theorem Forest.prune (h : Forest v) (cut : List NodeId) : Forest (View.prune cut v) where
  child {p c n} node mem := by
    obtain ⟨m, old, -, -, kept⟩ := prune_eq_some node
    rw [kept, List.mem_filter] at mem
    obtain ⟨k, child, parent⟩ := h.child old mem.1
    exact ⟨_, prune_apply child, by simpa [show c ∉ cut by simpa using mem.2] using parent⟩
  parent {c p m} node parent := by
    obtain ⟨k, old, -, above, -⟩ := prune_eq_some node
    rw [above] at parent
    split at parent
    · cases parent
    · rename_i hc
      obtain ⟨n, up, mem⟩ := h.parent old parent
      exact ⟨_, prune_apply up, List.mem_filter.2 ⟨mem, by simpa using hc⟩⟩
  children_nodup node := by
    obtain ⟨m, old, -, -, kept⟩ := prune_eq_some node
    rw [kept]
    exact (h.children_nodup old).filter _
  rooted node := by
    obtain ⟨m, old, -⟩ := prune_eq_some node
    exact (h.rooted old).prune
  fragment_parent node fragment := by
    obtain ⟨m, old, data, parent, -⟩ := prune_eq_some node
    rw [parent, h.fragment_parent old (data ▸ fragment)]
    simp
  container node some_child := by
    obtain ⟨m, old, data, -, kept⟩ := prune_eq_some node
    rw [data]
    refine h.container old fun none_child => some_child ?_
    rw [kept, none_child]
    rfl
  attributes node := by
    obtain ⟨m, old, data, -⟩ := prune_eq_some node
    rw [data]
    exact h.attributes old

/-! ## Grafting -/

/-- The list with others put before its element number `k`. -/
def splice (k : Nat) (moved cs : List NodeId) : List NodeId := cs.take k ++ moved ++ cs.drop k

theorem mem_splice {k : Nat} {moved cs : List NodeId} {c : NodeId} :
    c ∈ splice k moved cs ↔ c ∈ moved ∨ c ∈ cs := by
  have whole : c ∈ cs ↔ c ∈ cs.take k ∨ c ∈ cs.drop k := by
    rw [← List.mem_append, List.take_append_drop]
  simp only [splice, List.mem_append, whole]
  constructor
  · rintro ((h | h) | h)
    · exact .inr (.inl h)
    · exact .inl h
    · exact .inr (.inr h)
  · rintro (h | h | h)
    · exact .inl (.inr h)
    · exact .inl (.inl h)
    · exact .inr h

theorem nodup_splice {k : Nat} {moved cs : List NodeId} (hm : moved.Nodup) (hc : cs.Nodup)
    (apart : ∀ c ∈ moved, c ∉ cs) : (splice k moved cs).Nodup := by
  have whole : (cs.take k ++ cs.drop k).Nodup := by rwa [List.take_append_drop]
  obtain ⟨front, back, across⟩ := List.nodup_append.1 whole
  have outFront : ∀ c ∈ moved, c ∉ cs.take k := fun c mem inFront =>
    apart c mem (List.mem_of_mem_take inFront)
  have outBack : ∀ c ∈ moved, c ∉ cs.drop k := fun c mem inBack =>
    apart c mem (List.mem_of_mem_drop inBack)
  simp only [splice]
  rw [List.nodup_append]
  refine ⟨List.nodup_append.2 ⟨front, hm, ?_⟩, back, ?_⟩
  · rintro a ha b hb rfl
    exact outFront a hb ha
  · rintro a ha b hb rfl
    rcases List.mem_append.1 ha with ha | ha
    · exact across a ha a hb rfl
    · exact outBack a ha hb

/-- The view in which the nodes of `moved` are children of `parent`, before its child
number `k`. -/
def graft (parent : NodeId) (moved : List NodeId) (k : Nat) (v : View) : View := fun x =>
  (v x).map fun n =>
    { n with
      parent := if x ∈ moved then some parent else n.parent
      children := if x = parent then splice k moved n.children else n.children }

theorem graft_eq_some {parent x : NodeId} {moved : List NodeId} {k : Nat} {n : Node}
    (h : graft parent moved k v x = some n) :
    ∃ m, v x = some m ∧ n.data = m.data ∧
      (n.parent = if x ∈ moved then some parent else m.parent) ∧
      n.children = if x = parent then splice k moved m.children else m.children := by
  obtain ⟨m, node, rfl⟩ := Option.map_eq_some_iff.1 h
  exact ⟨m, node, rfl, rfl, rfl⟩

theorem graft_apply {parent x : NodeId} {moved : List NodeId} {k : Nat} {n : Node}
    (h : v x = some n) :
    graft parent moved k v x = some { n with
      parent := if x ∈ moved then some parent else n.parent
      children := if x = parent then splice k moved n.children else n.children } := by
  simp [graft, h]

/-- What may be put below a node: roots that are no fragments and not above that node. -/
structure Graftable (v : View) (parent : NodeId) (moved : List NodeId) : Prop where
  host : ∃ n, v parent = some n ∧ n.data.isContainer = true
  nodup : moved.Nodup
  root : ∀ c ∈ moved, ∃ m, v c = some m ∧ m.parent = none ∧ m.data ≠ .fragment
  not_above : ∀ c ∈ moved, ¬Above v c parent

namespace Graftable

variable {parent : NodeId} {moved : List NodeId}

theorem rooted_of_not_below (parent : NodeId) (k : Nat) {x : NodeId} (hx : Rooted v x)
    (apart : ∀ c ∈ moved, ¬Above v c x) : Rooted (graft parent moved k v) x := by
  induction hx with
  | @top x n node top =>
      have out : x ∉ moved := fun mem => apart x mem .self
      exact .top (graft_apply node) (by simpa [out] using top)
  | @under x p n node up _ ih =>
      have out : x ∉ moved := fun mem => apart x mem .self
      exact .under (graft_apply node) (by simpa [out] using up)
        (ih fun c mem above => apart c mem (.step node up above))

theorem rooted (g : Graftable v parent moved) (h : Forest v) (k : Nat) {x : NodeId}
    (hx : Rooted v x) : Rooted (graft parent moved k v) x := by
  obtain ⟨n, host, -⟩ := g.host
  have hostRooted := rooted_of_not_below parent k (h.rooted host) g.not_above
  induction hx with
  | @top x n node top =>
      by_cases mem : x ∈ moved
      · exact .under (graft_apply node) (by simp [mem]) hostRooted
      · exact .top (graft_apply node) (by simpa [mem] using top)
  | @under x p n node up _ ih =>
      by_cases mem : x ∈ moved
      · exact .under (graft_apply node) (by simp [mem]) hostRooted
      · exact .under (graft_apply node) (by simpa [mem] using up) ih

end Graftable

theorem Forest.graft {parent : NodeId} {moved : List NodeId} (h : Forest v)
    (g : Graftable v parent moved) (k : Nat) : Forest (View.graft parent moved k v) where
  child {p c n} node mem := by
    obtain ⟨m, old, -, -, kids⟩ := graft_eq_some node
    rw [kids] at mem
    have listed : p = parent ∧ c ∈ moved ∨ c ∈ m.children := by
      split at mem
      · rcases mem_splice.1 mem with mem | mem
        · exact .inl ⟨‹_›, mem⟩
        · exact .inr mem
      · exact .inr mem
    rcases listed with ⟨rfl, new⟩ | mem
    · obtain ⟨k, child, -⟩ := g.root c new
      exact ⟨_, graft_apply child, by simp [new]⟩
    · obtain ⟨k, child, up⟩ := h.child old mem
      have out : c ∉ moved := by
        intro mem
        obtain ⟨k', child', top, -⟩ := g.root c mem
        rw [child] at child'
        cases child'
        rw [top] at up
        cases up
      exact ⟨_, graft_apply child, by simpa [out] using up⟩
  parent {c p m} node up := by
    obtain ⟨k, old, -, above, -⟩ := graft_eq_some node
    rw [above] at up
    split at up
    · rename_i mem
      cases up
      obtain ⟨n, host, -⟩ := g.host
      exact ⟨_, graft_apply host, by simp [mem_splice, mem]⟩
    · obtain ⟨n, listed, mem⟩ := h.parent old up
      refine ⟨_, graft_apply listed, ?_⟩
      dsimp only
      split
      · exact mem_splice.2 (.inr mem)
      · exact mem
  children_nodup {p n} node := by
    obtain ⟨m, old, -, -, kids⟩ := graft_eq_some node
    rw [kids]
    split
    · rename_i same
      subst same
      refine nodup_splice g.nodup (h.children_nodup old) fun c mem listed => ?_
      obtain ⟨k, child, up⟩ := h.child old listed
      obtain ⟨k', child', top, -⟩ := g.root c mem
      rw [child] at child'
      cases child'
      rw [top] at up
      cases up
    · exact h.children_nodup old
  rooted node := by
    obtain ⟨m, old, -⟩ := graft_eq_some node
    exact g.rooted h k (h.rooted old)
  fragment_parent {x n} node fragment := by
    obtain ⟨m, old, data, up, -⟩ := graft_eq_some node
    have out : x ∉ moved := by
      intro mem
      obtain ⟨k, root, -, solid⟩ := g.root x mem
      rw [old] at root
      cases root
      exact solid (data ▸ fragment)
    rw [up, if_neg out]
    exact h.fragment_parent old (data ▸ fragment)
  container {x n} node some_child := by
    obtain ⟨m, old, data, -, kids⟩ := graft_eq_some node
    rw [data]
    by_cases same : x = parent
    · obtain ⟨k, host, holds⟩ := g.host
      subst same
      rw [old] at host
      cases host
      exact holds
    · rw [if_neg same] at kids
      exact h.container old fun none_child => some_child (kids.trans none_child)
  attributes node := by
    obtain ⟨m, old, data, -⟩ := graft_eq_some node
    rw [data]
    exact h.attributes old

/-! ## Thinning -/

/-- Nodes have been given up: none that is there was changed, and with a node go its
children and, unless it was a root, its parent. -/
structure Thinned (v w : View) : Prop where
  sub : ∀ x, w x = v x ∨ w x = none
  down : ∀ {x : NodeId} {n : Node}, v x = some n → w x = none → ∀ c ∈ n.children, w c = none
  up : ∀ {x p : NodeId} {n : Node}, v x = some n → w x = none → n.parent = some p → w p = none

namespace Thinned

theorem node (t : Thinned v w) {x : NodeId} {n : Node} (h : w x = some n) : v x = some n := by
  rcases t.sub x with same | gone
  · rw [← same, h]
  · rw [gone] at h
    cases h

theorem kept (t : Thinned v w) {x : NodeId} {n : Node} (h : v x = some n)
    (there : w x ≠ none) : w x = some n := by
  rcases t.sub x with same | gone
  · rw [same, h]
  · exact (there gone).elim

theorem rooted (t : Thinned v w) (f : Forest v) {x : NodeId} (h : Rooted v x) (there : w x ≠ none) :
    Rooted w x := by
  induction h with
  | top node top => exact .top (t.kept node there) top
  | @under x p n node up _ ih =>
      refine .under (t.kept node there) up (ih fun gone => there ?_)
      obtain ⟨m, parent, mem⟩ := f.parent node up
      exact t.down parent gone x mem

end Thinned

theorem Forest.thin (h : Forest v) (t : Thinned v w) : Forest w where
  child {p c n} node mem := by
    obtain ⟨m, child, up⟩ := h.child (t.node node) mem
    refine ⟨m, t.kept child fun gone => ?_, up⟩
    rw [t.up child gone up] at node
    cases node
  parent {c p m} node up := by
    obtain ⟨n, parent, mem⟩ := h.parent (t.node node) up
    refine ⟨n, t.kept parent fun gone => ?_, mem⟩
    rw [t.down parent gone c mem] at node
    cases node
  children_nodup node := h.children_nodup (t.node node)
  rooted {x n} node := t.rooted h (h.rooted (t.node node)) (by rw [node]; simp)
  fragment_parent node := h.fragment_parent (t.node node)
  container node := h.container (t.node node)
  attributes node := h.attributes (t.node node)

/-! ## Other data -/

/-- A node has other data, of which the links hold as well. -/
theorem Forest.redata {id : NodeId} {n : Node} {data : NodeData} (h : Forest v)
    (node : v id = some n) (container : data.isContainer = n.data.isContainer)
    (fragment : data = .fragment → n.data = .fragment) (distinct : AttributesDistinct data) :
    Forest (v.put id { n with data }) := by
  have same : ∀ x m, v.put id { n with data } x = some m →
      ∃ k, v x = some k ∧ m.parent = k.parent ∧ m.children = k.children ∧
        (m.data = k.data ∨ x = id ∧ k = n ∧ m.data = data) := by
    intro x m hm
    by_cases hx : x = id
    · subst hx
      rw [put_self] at hm
      cases hm
      exact ⟨n, node, rfl, rfl, .inr ⟨rfl, rfl, rfl⟩⟩
    · rw [put_of_ne _ _ hx] at hm
      exact ⟨m, hm, rfl, rfl, .inl rfl⟩
  have forward : ∀ x k, v x = some k →
      ∃ m, v.put id { n with data } x = some m ∧ m.parent = k.parent ∧ m.children = k.children := by
    intro x k hk
    by_cases hx : x = id
    · subst hx
      rw [node] at hk
      cases hk
      exact ⟨_, put_self .., rfl, rfl⟩
    · exact ⟨k, by rw [put_of_ne _ _ hx, hk], rfl, rfl⟩
  have rooted : ∀ x, Rooted v x → Rooted (v.put id { n with data }) x := by
    intro x hx
    induction hx with
    | top node top =>
        obtain ⟨m, hm, up, -⟩ := forward _ _ node
        exact .top hm (up.trans top)
    | under node parent _ ih =>
        obtain ⟨m, hm, up, -⟩ := forward _ _ node
        exact .under hm (up.trans parent) ih
  refine ⟨?_, ?_, ?_, ?_, ?_, ?_, ?_⟩
  · intro p c m hm mem
    obtain ⟨k, old, -, kids, -⟩ := same p m hm
    obtain ⟨l, child, up⟩ := h.child old (kids ▸ mem)
    obtain ⟨l', child', up', -⟩ := forward c l child
    exact ⟨l', child', up'.trans up⟩
  · intro c p m hm up
    obtain ⟨k, old, parent, -⟩ := same c m hm
    obtain ⟨l, listed, mem⟩ := h.parent old (parent ▸ up)
    obtain ⟨l', listed', -, kids⟩ := forward p l listed
    exact ⟨l', listed', kids ▸ mem⟩
  · intro p m hm
    obtain ⟨k, old, -, kids, -⟩ := same p m hm
    exact kids ▸ h.children_nodup old
  · intro x m hm
    obtain ⟨k, old, -⟩ := same x m hm
    exact rooted x (h.rooted old)
  · intro x m hm isFragment
    obtain ⟨k, old, parent, -, unchanged | ⟨rfl, rfl, changed⟩⟩ := same x m hm
    · exact parent.trans (h.fragment_parent old (unchanged ▸ isFragment))
    · exact parent.trans (h.fragment_parent old (fragment (changed ▸ isFragment)))
  · intro x m hm some_child
    obtain ⟨k, old, -, kids, unchanged | ⟨rfl, rfl, changed⟩⟩ := same x m hm
    · rw [unchanged]
      exact h.container old (kids ▸ some_child)
    · rw [changed, container]
      exact h.container old (kids ▸ some_child)
  · intro x m hm
    obtain ⟨k, old, -, -, unchanged | ⟨rfl, rfl, changed⟩⟩ := same x m hm
    · rw [unchanged]
      exact h.attributes old
    · rw [changed]
      exact distinct

end View

end Stencil
