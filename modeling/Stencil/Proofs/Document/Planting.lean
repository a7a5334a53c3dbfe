import Stencil.Proofs.Document.Standing

/-! # Planting and reading

A change of a document trades some numbers for others and leaves all else alone. Planting
a tree trades nothing for the numbers of a standing copy; reading a standing tree gives it
back.
-/

namespace Stencil

open Markup NodeTree

namespace Document

mutual

/-- The document with a tree added node by node, each before its children. -/
def plant {ι : Type} (parent : Option NodeId) (d : Document) : NodeTree ι → NodeId × Document
  | .node _ data children =>
      let (id, d) := d.allocate { data, parent, children := [] }
      let (ids, d) := plantAll id d children
      (id, d.modify id fun n => { n with children := ids })

def plantAll {ι : Type} (parent : NodeId) (d : Document) :
    List (NodeTree ι) → List NodeId × Document
  | [] => ([], d)
  | t :: ts =>
      let (id, d) := plant (some parent) d t
      let (ids, d) := plantAll parent d ts
      (id :: ids, d)

end

/-- The nodes numbered `old` have given way to nodes numbered `new`; every other number is
as before, and the slots are still accounted for. -/
structure Trades (d d' : Document) (old new : List NodeId) : Prop where
  vacated : ∀ x ∈ old, x ∉ new → d'.view x = none
  fresh : ∀ x ∈ new, x ∉ old → d.view x = none
  frame : ∀ x, x ∉ old → x ∉ new → d'.view x = d.view x
  accounted : d'.Accounted
  name : d'.name = d.name
  strict : d'.strict = d.strict

namespace Trades

variable {d d' d'' : Document} {old mid new : List NodeId}

theorem refl (h : d.Accounted) (old : List NodeId) : Trades d d old old where
  vacated _ mem out := (out mem).elim
  fresh _ mem out := (out mem).elim
  frame _ _ _ := rfl
  accounted := h
  name := rfl
  strict := rfl

theorem trans (h : Trades d d' old mid) (k : Trades d' d'' mid new) : Trades d d'' old new where
  vacated x mem out := by
    by_cases hm : x ∈ mid
    · exact k.vacated x hm out
    · rw [k.frame x hm out]
      exact h.vacated x mem hm
  fresh x mem out := by
    by_cases hm : x ∈ mid
    · exact h.fresh x hm out
    · rw [← h.frame x out hm]
      exact k.fresh x mem hm
  frame x out out' := by
    by_cases hm : x ∈ mid
    · rw [k.vacated x hm out', h.fresh x hm out]
    · rw [k.frame x hm out', h.frame x out hm]
  accounted := k.accounted
  name := k.name.trans h.name
  strict := k.strict.trans h.strict

/-- Numbers that are listed on both sides do not count. -/
theorem weaken {old' new' : List NodeId} (h : Trades d d' old new) (rest : List NodeId)
    (hold : ∀ x, x ∈ old' ↔ x ∈ old ∨ x ∈ rest) (hnew : ∀ x, x ∈ new' ↔ x ∈ new ∨ x ∈ rest) :
    Trades d d' old' new' where
  vacated x mem out := by
    rw [hnew, not_or] at out
    exact h.vacated x (((hold x).1 mem).resolve_right out.2) out.1
  fresh x mem out := by
    rw [hold, not_or] at out
    exact h.fresh x (((hnew x).1 mem).resolve_right out.2) out.1
  frame x out out' := by
    rw [hold, not_or] at out
    rw [hnew, not_or] at out'
    exact h.frame x out.1 out'.1
  accounted := h.accounted
  name := h.name
  strict := h.strict

/-- A node outside the traded numbers is there afterwards. -/
theorem kept (h : Trades d d' old new) {x : NodeId} {n : Node} (node : d.view x = some n)
    (out : x ∉ old) : d'.view x = some n := by
  rw [h.frame x out fun mem => ?_, node]
  rw [h.fresh x mem out] at node
  cases node

theorem stands (h : Trades d d' old new) {p : Option NodeId} {t : NodeTree NodeId}
    (ht : d.view.Stands p t) (out : ∀ x ∈ t.labels, x ∉ old) : d'.view.Stands p t := by
  refine ht.congr fun x hx => ?_
  cases node : d.view x with
  | none => exact (ht.live hx node).elim
  | some n => exact h.kept node (out x hx)

end Trades

theorem Accounted.create {d : Document} (h : d.Accounted) (n : Node) :
    Trades d (d.allocate n).2 [] [(d.allocate n).1] := by
  obtain ⟨fresh, view, accounted⟩ := h.allocate n
  refine ⟨by simp, by simpa using fresh, fun x _ out => ?_, accounted, ?_, ?_⟩
  · rw [view, View.put_of_ne _ _ (by simpa using out)]
  · simp only [Document.allocate]
    split <;> rfl
  · simp only [Document.allocate]
    split <;> rfl

theorem Accounted.change {d : Document} (h : d.Accounted) (id : NodeId) (f : Node → Node) :
    Trades d (d.modify id f) [id] [id] := by
  refine ⟨by simp, by simp, fun x out _ => ?_, h.modify id f, rfl, rfl⟩
  rw [view_modify, View.alter_of_ne _ _ (by simpa using out)]

/-! ## Planting -/

/-- A copy of a tree has been planted. -/
structure Planted {ι : Type} (d d' : Document) (p : Option NodeId) (t : NodeTree ι)
    (s : NodeTree NodeId) : Prop where
  shape : s.shape = t.shape
  stands : d'.view.Stands p s
  nodup : s.labels.Nodup
  trades : Trades d d' [] s.labels

/-- The top of what has been planted, and the trees below it. -/
theorem Planted.parts {d d' : Document} {p : Option NodeId} {data : NodeData}
    {ts : List (NodeTree Unit)} {s : NodeTree NodeId} (h : Planted d d' p (.node () data ts) s) :
    s.data = data ∧ s.children.map NodeTree.shape = ts := by
  obtain ⟨id, own, children⟩ := s
  have same := h.shape
  rw [shape_node, shape_node, map_shape_eq_self] at same
  exact (NodeTree.node.inj same).2

/-- Copies of trees have been planted side by side. -/
structure PlantedAll {ι : Type} (d d' : Document) (p : Option NodeId) (ts : List (NodeTree ι))
    (ss : List (NodeTree NodeId)) : Prop where
  shape : ss.map NodeTree.shape = ts.map NodeTree.shape
  stands : d'.view.StandAll p ss
  nodup : (labelsAll ss).Nodup
  trades : Trades d d' [] (labelsAll ss)

mutual

theorem planted_plant {ι : Type} : (t : NodeTree ι) → (p : Option NodeId) → (d : Document) →
    d.Accounted →
    ∃ s : NodeTree NodeId, s.label = (d.plant p t).1 ∧ Planted d (d.plant p t).2 p t s
  | .node label data children, p, d, h => by
      obtain ⟨fresh, view, accounted⟩ := h.allocate { data, parent := p, children := [] }
      have created := h.create { data, parent := p, children := [] }
      rcases made : d.allocate { data, parent := p, children := [] } with ⟨id, d₁⟩
      rw [made] at fresh view accounted created
      obtain ⟨ss, labels, planted⟩ := planted_plantAll children id d₁ accounted
      have whole : d.plant p (.node label data children) =
          (id, (plantAll id d₁ children).2.modify id
            fun n => { n with children := (plantAll id d₁ children).1 }) := by
        simp [plant, made]
      have here : d₁.view id = some { data, parent := p, children := [] } := by
        rw [show d₁.view = _ from view, View.put_self]
      have apart : id ∉ labelsAll ss := fun mem => by
        rw [planted.trades.fresh id mem (by simp)] at here
        cases here
      have still := planted.trades.kept here (by simp)
      have changed := planted.trades.accounted.change id
        fun n => { n with children := (plantAll id d₁ children).1 }
      refine ⟨.node id data ss, by rw [whole]; rfl, ?_⟩
      rw [whole]
      refine ⟨?_, ⟨?_, ?_⟩, ?_, ?_⟩
      · rw [shape_node, shape_node, planted.shape]
      · rw [view_modify, View.alter_self _ still, ← labels]
      · exact (View.standAll_iff.2 fun s mem => changed.stands (View.standAll_iff.1 planted.stands s mem)
          fun x hx same => apart (by
            rw [List.mem_singleton] at same
            exact same ▸ labels_subset_labelsAll mem x hx))
      · exact List.nodup_cons.2 ⟨apart, planted.nodup⟩
      · have grown : Trades d₁ _ [id] (id :: labelsAll ss) :=
          planted.trades.weaken [id] (by simp) (by simp [or_comm])
        have linked : Trades _ _ (id :: labelsAll ss) (id :: labelsAll ss) :=
          changed.weaken (labelsAll ss) (by simp) (by simp)
        exact (created.trans grown).trans linked

theorem planted_plantAll {ι : Type} : (ts : List (NodeTree ι)) → (p : NodeId) →
    (d : Document) → d.Accounted →
    ∃ ss : List (NodeTree NodeId), ss.map NodeTree.label = (plantAll p d ts).1 ∧
      PlantedAll d (plantAll p d ts).2 (some p) ts ss
  | [], p, d, h => ⟨[], rfl, rfl, trivial, List.nodup_nil, Trades.refl h []⟩
  | t :: ts, p, d, h => by
      obtain ⟨s, label, planted⟩ := planted_plant t (some p) d h
      obtain ⟨ss, labels, more⟩ :=
        planted_plantAll ts p (d.plant (some p) t).2 planted.trades.accounted
      have apart : ∀ x ∈ s.labels, x ∉ labelsAll ss := fun x hx mem =>
        planted.stands.live hx (more.trades.fresh x mem (by simp))
      refine ⟨s :: ss, by simp [plantAll, label, labels], ?_, ⟨?_, more.stands⟩, ?_, ?_⟩
      · simp [planted.shape, more.shape]
      · exact more.trades.stands planted.stands (by simp)
      · refine List.nodup_append.2 ⟨planted.nodup, more.nodup, ?_⟩
        rintro x hx _ hy rfl
        exact apart x hx hy
      · exact planted.trades.trans
          (more.trades.weaken s.labels (by simp) (by simp [or_comm]))

end

/-- A new node stands alone. -/
theorem planted_create {d : Document} (h : d.Accounted) (data : NodeData) :
    Planted d (d.create data).2 none (.node () data []) (.node (d.create data).1 data []) := by
  obtain ⟨-, view, -⟩ := h.allocate { data, parent := none, children := [] }
  exact {
    shape := rfl
    stands := ⟨by rw [Document.create, view]; simp, trivial⟩
    nodup := by simp
    trades := h.create _ }

/-! ## Reading -/

theorem length_labels_le {d : Document} {p : Option NodeId} {t : NodeTree NodeId}
    (h : d.view.Stands p t) (nodup : t.labels.Nodup) : t.labels.length ≤ d.slots.size :=
  length_le_of_live nodup fun _ hx => h.live hx

mutual

theorem treeWithin_of_stands {d : Document} : (t : NodeTree NodeId) → (p : Option NodeId) →
    (fuel : Nat) → d.view.Stands p t → t.height ≤ fuel → d.treeWithin fuel t.label = .ok t
  | .node id data children, p, 0, _, short => by simp [height] at short
  | .node id data children, p, fuel + 1, h, short => by
      have below := mapM_treeWithin_of_standAll children (some id) fuel h.2
        (by simpa [height] using short)
      simp [treeWithin, NodeTree.label, node_eq_ok h.1, below, bind, Except.bind, pure, Except.pure]

theorem mapM_treeWithin_of_standAll {d : Document} : (ts : List (NodeTree NodeId)) →
    (p : Option NodeId) → (fuel : Nat) → d.view.StandAll p ts → heightAll ts ≤ fuel →
    (ts.map NodeTree.label).mapM (d.treeWithin fuel) = .ok ts
  | [], _, _, _, _ => rfl
  | t :: ts, p, fuel, h, short => by
      have short : t.height ≤ fuel ∧ heightAll ts ≤ fuel := by
        simpa [heightAll, Nat.max_le] using short
      have first := treeWithin_of_stands t p fuel h.1 short.1
      have others := mapM_treeWithin_of_standAll ts p fuel h.2 short.2
      simp [List.mapM_cons, first, others, bind, Except.bind, pure, Except.pure]

end

/-- Reading a standing tree gives the tree. -/
theorem tree_of_stands {d : Document} {p : Option NodeId} {t : NodeTree NodeId}
    (h : d.view.Stands p t) (nodup : t.labels.Nodup) : d.tree t.label = .ok t := by
  refine treeWithin_of_stands t p _ h ?_
  have tall := height_le_length_labels t
  have bound := length_labels_le h nodup
  omega

/-- What is read where links agree stands there. -/
theorem stands_of_linked {d : Document} (f : d.view.Linked) (fuel : Nat) :
    ∀ (id : NodeId) (t : NodeTree NodeId), d.treeWithin fuel id = .ok t →
      ∃ n, d.view id = some n ∧ t.label = id ∧ d.view.Stands n.parent t := by
  induction fuel with
  | zero => intro id t h; simp [treeWithin] at h
  | succ fuel ih =>
      intro id t h
      cases hn : d.view id with
      | none => simp [treeWithin, node_eq_error hn, bind, Except.bind] at h
      | some n =>
          have below : ∀ (cs : List NodeId) (ts : List (NodeTree NodeId)),
              (∀ c ∈ cs, c ∈ n.children) → cs.mapM (d.treeWithin fuel) = .ok ts →
                ts.map NodeTree.label = cs ∧ d.view.StandAll (some id) ts := by
            intro cs
            induction cs with
            | nil =>
                intro ts _ hm
                cases hm
                exact ⟨rfl, trivial⟩
            | cons c cs ihc =>
                intro ts sub hm
                rw [List.mapM_cons] at hm
                cases ht : d.treeWithin fuel c with
                | error e => simp [ht, bind, Except.bind] at hm
                | ok t =>
                    cases hts : cs.mapM (d.treeWithin fuel) with
                    | error e => simp [ht, hts, bind, Except.bind] at hm
                    | ok us =>
                        have same : t :: us = ts := by
                          simpa [ht, hts, bind, Except.bind, pure, Except.pure] using hm
                        subst same
                        obtain ⟨m, node, label, stands⟩ := ih c t ht
                        obtain ⟨k, child, parent⟩ := f.child hn (sub c (by simp))
                        rw [node] at child
                        cases child
                        obtain ⟨labels, all⟩ :=
                          ihc us (fun c mem => sub c (by simp [mem])) hts
                        exact ⟨by simp [label, labels], parent ▸ stands, all⟩
          cases hm : n.children.mapM (d.treeWithin fuel) with
          | error e => simp [treeWithin, node_eq_ok hn, hm, bind, Except.bind] at h
          | ok ts =>
              obtain ⟨labels, all⟩ := below n.children ts (fun _ m => m) hm
              have same : NodeTree.node id n.data ts = t := by
                simpa [treeWithin, node_eq_ok hn, hm, bind, Except.bind, pure, Except.pure] using h
              subst same
              exact ⟨n, rfl, rfl, by rw [hn, labels], all⟩

/-- What is read from a forest stands in it. -/
theorem stands_of_treeWithin {d : Document} (f : d.view.Forest) (fuel : Nat) (id : NodeId)
    (t : NodeTree NodeId) (read : d.treeWithin fuel id = .ok t) :
    ∃ n, d.view id = some n ∧ t.label = id ∧ d.view.Stands n.parent t :=
  stands_of_linked f.linked fuel id t read

/-- Below a node there are fewer levels than there are slots left beside those of the nodes
above it. -/
theorem exists_treeWithin {d : Document} (f : d.view.Linked) (fuel : Nat) :
    ∀ {id : NodeId} {n : Node} (higher : List NodeId), d.view id = some n → higher.Nodup →
      (∀ a ∈ higher, d.view a ≠ none ∧ d.view.Above a id ∧ a ≠ id) →
      d.slots.size < higher.length + fuel → ∃ t, d.treeWithin fuel id = .ok t := by
  induction fuel with
  | zero =>
      intro id n higher _ nodup above room
      have bound := length_le_of_live nodup fun a mem => (above a mem).1
      omega
  | succ fuel ih =>
      intro id n higher node nodup above room
      have below : ∀ cs : List NodeId, (∀ c ∈ cs, c ∈ n.children) → ∃ ts, cs.mapM (d.treeWithin fuel) = .ok ts := by
        intro cs
        induction cs with
        | nil => exact fun _ => ⟨[], rfl⟩
        | cons c cs ihc =>
            intro sub
            obtain ⟨m, child, parent⟩ := f.child node (sub c (by simp))
            have up : ¬d.view.Above c id := (f.rooted child).not_above_parent child parent
            obtain ⟨t, first⟩ := ih (id :: higher) child
              (List.nodup_cons.2 ⟨fun mem => (above id mem).2.2 rfl, nodup⟩)
              (List.forall_mem_cons.2 ⟨⟨by simp [node], .step child parent .self, fun same =>
                up (same ▸ .self)⟩, fun a mem => ⟨(above a mem).1, .step child parent (above a mem).2.1,
                  fun same => up (same ▸ (above a mem).2.1)⟩⟩)
              (by simp only [List.length_cons]; omega)
            obtain ⟨ts, others⟩ := ihc fun c mem => sub c (by simp [mem])
            exact ⟨t :: ts, by simp [List.mapM_cons, first, others, bind, Except.bind, pure, Except.pure]⟩
      obtain ⟨ts, all⟩ := below n.children fun _ mem => mem
      exact ⟨.node id n.data ts, by
        simp [treeWithin, node_eq_ok node, all, bind, Except.bind, pure, Except.pure]⟩

/-- Where links agree, every node has a tree, which stands below its parent. -/
theorem exists_tree_of_linked {d : Document} (f : d.view.Linked) {id : NodeId} {n : Node}
    (node : d.view id = some n) :
    ∃ t, d.tree id = .ok t ∧ t.label = id ∧ d.view.Stands n.parent t := by
  obtain ⟨t, read⟩ := exists_treeWithin f (d.slots.size + 1) [] node List.nodup_nil (by simp) (by simp)
  obtain ⟨m, same, label, stands⟩ := stands_of_linked f _ id t read
  rw [node] at same
  cases same
  exact ⟨t, read, label, stands⟩

/-- Every node of a forest has a tree, which stands below its parent. -/
theorem exists_tree {d : Document} (f : d.view.Forest) {id : NodeId} {n : Node}
    (node : d.view id = some n) :
    ∃ t, d.tree id = .ok t ∧ t.label = id ∧ d.view.Stands n.parent t :=
  exists_tree_of_linked f.linked node

end Document

/-! ## Planting in a forest -/

namespace View.Forest

variable {v w : View} {t : NodeTree NodeId}

mutual

theorem fits_of_stands (f : Forest v) : (t : NodeTree NodeId) → (p : Option NodeId) →
    v.Stands p t → t.Fits
  | .node id data children, _, h =>
      ⟨f.attributes h.1, fun some_child => f.container h.1 (by simpa using some_child),
        fitAll_of_standAll f children id h.2⟩

theorem fitAll_of_standAll (f : Forest v) : (ts : List (NodeTree NodeId)) → (p : NodeId) →
    v.StandAll (some p) ts → FitAll ts
  | [], _, _ => trivial
  | t :: ts, p, h =>
      ⟨⟨fun fragment => Option.some_ne_none p (f.fragment_parent h.1.top fragment),
          fits_of_stands f t _ h.1⟩,
        fitAll_of_standAll f ts p h.2⟩

end

/-- A new tree without a parent beside a forest. -/
theorem plant (f : Forest v) (stands : w.Stands none t) (nodup : t.labels.Nodup) (fits : t.Fits)
    (fresh : ∀ x ∈ t.labels, v x = none) (frame : ∀ x, x ∉ t.labels → w x = v x) : Forest w := by
  have old : ∀ {x n}, v x = some n → x ∉ t.labels := fun node mem => by
    rw [fresh _ mem] at node
    cases node
  have kept : ∀ {x n}, v x = some n → w x = some n := fun node => (frame _ (old node)).trans node
  have split : ∀ {x n}, w x = some n → v x = some n ∨
      ∃ q s, Within none t q s ∧ s.label = x ∧
        n = { data := s.data, parent := q, children := s.children.map NodeTree.label } := by
    intro x n node
    by_cases hx : x ∈ t.labels
    · obtain ⟨q, s, inside, rfl⟩ := exists_within none t x hx
      rw [(stands.within inside).top] at node
      cases node
      exact .inr ⟨q, s, inside, rfl, rfl⟩
    · exact .inl ((frame x hx).symm.trans node)
  have rootedOld : ∀ {x}, Rooted v x → Rooted w x := by
    intro x hx
    induction hx with
    | top node parent => exact .top (kept node) parent
    | under node parent _ ih => exact .under (kept node) parent ih
  have rootedNew : ∀ {q s}, Within none t q s → Rooted w s.label := by
    intro q s inside
    have top := (stands.within inside).top
    induction inside with
    | self => exact .top top rfl
    | child inside _ ih => exact .under top rfl (ih (stands.within inside).top)
  refine ⟨?_, ?_, ?_, ?_, ?_, ?_, ?_⟩
  · intro p c n node mem
    rcases split node with node | ⟨q, s, inside, rfl, rfl⟩
    · obtain ⟨m, child, parent⟩ := f.child node mem
      exact ⟨m, kept child, parent⟩
    · cases s with
      | node id data children =>
          obtain ⟨s, listed, rfl⟩ := List.mem_map.1 mem
          exact ⟨_, (stands.within (inside.child listed)).top, rfl⟩
  · intro c p m node parent
    rcases split node with node | ⟨q, s, inside, rfl, rfl⟩
    · obtain ⟨n, listed, mem⟩ := f.parent node parent
      exact ⟨n, kept listed, mem⟩
    · cases inside with
      | self => cases parent
      | child inside mem =>
          cases parent
          exact ⟨_, (stands.within inside).top, List.mem_map_of_mem mem⟩
  · intro p n node
    rcases split node with node | ⟨q, s, inside, rfl, rfl⟩
    · exact f.children_nodup node
    · have below : s.labels.Nodup := nodup.sublist inside.sublist
      cases s with
      | node id data children =>
          exact (List.nodup_cons.1 below).2.sublist (map_label_sublist children)
  · intro x n node
    rcases split node with node | ⟨q, s, inside, rfl, rfl⟩
    · exact rootedOld (f.rooted node)
    · exact rootedNew inside
  · intro x n node fragment
    rcases split node with node | ⟨q, s, inside, rfl, rfl⟩
    · exact f.fragment_parent node fragment
    · exact (inside.eq_of_fragment fits fragment).1
  · intro x n node some_child
    rcases split node with node | ⟨q, s, inside, rfl, rfl⟩
    · exact f.container node some_child
    · cases s with
      | node id data children =>
          exact (inside.fits fits).2.1 fun none_child => some_child (by
            rw [show children = [] from none_child]
            rfl)
  · intro x n node
    rcases split node with node | ⟨q, s, inside, rfl, rfl⟩
    · exact f.attributes node
    · cases s
      exact (inside.fits fits).1

end View.Forest

end Stencil
