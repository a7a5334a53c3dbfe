import Stencil.Proofs.Document.Content

/-! # Tending nodes

What an edit of the content of a node does to the rest of a sound document: nothing. The nodes
that it makes on the way are below the node in the end, or gone.
-/

namespace Stencil

open Markup NodeTree

namespace Document

open Edit View

variable {α : Type} {d d' d'' : Document} {c g q : NodeId} {n m : Node}

/-- A sound document that mends flaws of markup. -/
structure Steady (d : Document) : Prop where
  sound : d.Sound
  lenient : d.strict = false

theorem Steady.forest (h : d.Steady) : d.view.Forest := h.sound.forest

theorem Steady.ok {e : Edit α} {a : α} (h : d.Steady) (run : e d = .ok a d')
    (sound : (e.after d).Sound) (lasting : ∀ {P : Document → Prop}, Lasting P → Keeps P e) :
    d'.Steady := by
  have settings := lasting (lasting_settings d.name false) d ⟨rfl, h.lenient⟩
  rw [after_ok run] at sound settings
  exact ⟨sound, settings.2⟩

/-- The content of a node has been changed, and nothing else. -/
structure Tended (g : NodeId) (d d' : Document) : Prop where
  steady : d'.Steady
  confined : Confined [g] d.view d'.view
  top : ∃ n m, d.view g = some n ∧ d'.view g = some m ∧ m.data = n.data ∧ m.parent = n.parent

theorem Tended.refl (h : d.Steady) (host : d.view g = some n) : Tended g d d :=
  ⟨h, .refl .., n, n, host, host, rfl, rfl⟩

theorem Tended.trans (h : Tended g d d') (k : Tended g d' d'') : Tended g d d'' := by
  obtain ⟨n, m, node, node', data, parent⟩ := h.top
  obtain ⟨m', l, same, node'', data', parent'⟩ := k.top
  rw [node'] at same
  cases same
  exact ⟨k.steady, h.confined.trans k.confined, n, l, node, node'', data'.trans data,
    parent'.trans parent⟩

/-- Attributes of some elements have been changed, and new trees may stand beside. -/
structure Grown (hosts : List NodeId) (d d' : Document) : Prop where
  steady : d'.Steady
  links : ∀ {x n}, d.view x = some n → ∃ m, d'.view x = some m ∧
    m.data.isElement = n.data.isElement ∧ m.parent = n.parent ∧ m.children = n.children
  others : ∀ {x n}, x ∉ hosts → d.view x = some n → d'.view x = some n

namespace Grown

variable {hosts more : List NodeId} {x : NodeId}

theorem refl (h : d.Steady) (hosts : List NodeId) : Grown hosts d d :=
  ⟨h, fun node => ⟨_, node, rfl, rfl, rfl⟩, fun _ node => node⟩

theorem trans (h : Grown hosts d d') (k : Grown hosts d' d'') : Grown hosts d d'' where
  steady := k.steady
  links node := by
    obtain ⟨m, node', element, parent, children⟩ := h.links node
    obtain ⟨l, node'', element', parent', children'⟩ := k.links node'
    exact ⟨l, node'', element'.trans element, parent'.trans parent, children'.trans children⟩
  others out node := k.others out (h.others out node)

theorem mono (h : Grown hosts d d') (sub : hosts ⊆ more) : Grown more d d' :=
  ⟨h.steady, h.links, fun out => h.others fun mem => out (sub mem)⟩

/-- Changes of elements that were not there do not count. -/
theorem trans_new (h : Grown hosts d d') (k : Grown more d' d'')
    (fresh : ∀ x ∈ more, d.view x = none) : Grown hosts d d'' where
  steady := k.steady
  links := (h.mono (List.subset_append_left hosts more)).trans
    (k.mono (List.subset_append_right hosts more)) |>.links
  others {x n} out node := by
    refine k.others (fun mem => ?_) (h.others out node)
    rw [fresh x mem] at node
    cases node

theorem of_planted {ι : Type} {t : NodeTree ι} {s : NodeTree NodeId}
    (planted : Planted d d' none t s) (steady : d'.Steady) : Grown [] d d' := by
  have kept : ∀ {x n}, d.view x = some n → d'.view x = some n := fun node =>
    planted.trades.kept node (by simp)
  exact ⟨steady, fun node => ⟨_, kept node, rfl, rfl, rfl⟩, fun _ => kept⟩

/-- What is new afterwards was new before. -/
theorem fresh (h : Grown hosts d d') (dead : d'.view x = none) : d.view x = none := by
  cases old : d.view x with
  | none => rfl
  | some n =>
      obtain ⟨m, alive, -⟩ := h.links old
      rw [dead] at alive
      cases alive

/-- The same nodes are above those that were there. -/
theorem above_iff (h : Grown hosts d d') (steady : d.Steady) (node : d.view x = some n) :
    d'.view.Above c x ↔ d.view.Above c x := by
  constructor
  · intro above
    induction above generalizing n with
    | self => exact .self
    | @step x p k there up _ ih =>
        obtain ⟨m, node', -, parent, -⟩ := h.links node
        rw [there] at node'
        cases node'
        obtain ⟨l, higher, -⟩ := steady.forest.parent node (parent.symm.trans up)
        exact .step node (parent.symm.trans up) (ih higher)
  · intro above
    clear node
    induction above with
    | self => exact .self
    | step there up _ ih =>
        obtain ⟨m, node', -, parent, -⟩ := h.links there
        exact .step node' (parent.trans up) ih

/-- No new node is above one that was there. -/
theorem not_below_new (h : Grown hosts d d') (steady : d.Steady) (fresh : d.view c = none)
    (node : d.view x = some n) : ¬d'.view.Above c x := by
  rw [h.above_iff steady node]
  intro above
  rw [← steady.forest.eq_of_above_dead fresh above, fresh] at node
  cases node

/-- A node that was there is above no new one. -/
theorem not_above_new (h : Grown hosts d d') (steady : d.Steady) (old : d.view c = some n)
    (fresh : d.view x = none) : ¬d'.view.Above c x := by
  intro above
  induction above with
  | self =>
      rw [old] at fresh
      cases fresh
  | @step x p k there up _ ih =>
      cases higher : d.view p with
      | none => exact ih higher
      | some l =>
          obtain ⟨m, node', -, -, children⟩ := h.links higher
          obtain ⟨m', same, mem⟩ := h.steady.forest.parent there up
          rw [node'] at same
          cases same
          obtain ⟨i, child, -⟩ := steady.forest.child higher (children ▸ mem)
          rw [fresh] at child
          cases child

end Grown

/-- Attributes of some elements have been changed, and nothing else. -/
structure Dressed (hosts : List NodeId) (d d' : Document) : Prop extends Grown hosts d d' where
  gone : ∀ {x}, d.view x = none → d'.view x = none

namespace Dressed

variable {hosts more : List NodeId}

theorem refl (h : d.Steady) (hosts : List NodeId) : Dressed hosts d d :=
  ⟨.refl h hosts, fun gone => gone⟩

theorem trans (h : Dressed hosts d d') (k : Dressed hosts d' d'') : Dressed hosts d d'' :=
  ⟨h.toGrown.trans k.toGrown, fun gone => k.gone (h.gone gone)⟩

theorem mono (h : Dressed hosts d d') (sub : hosts ⊆ more) : Dressed more d d' :=
  ⟨h.toGrown.mono sub, h.gone⟩

theorem of_node (steady : d'.Steady) {m : Node} (node : d.view g = some n)
    (node' : d'.view g = some m) (element : m.data.isElement = n.data.isElement)
    (parent : m.parent = n.parent) (children : m.children = n.children)
    (others : ∀ x, x ≠ g → d'.view x = d.view x) : Dressed [g] d d' where
  steady := steady
  links {x k} there := by
    by_cases same : x = g
    · rw [same, node] at there
      cases there
      exact ⟨m, same ▸ node', element, parent, children⟩
    · exact ⟨k, (others x same).trans there, rfl, rfl, rfl⟩
  others {x k} out there := (others x (by simpa using out)).trans there
  gone {x} dead := by
    by_cases same : x = g
    · rw [same, node] at dead
      cases dead
    · exact (others x same).trans dead

theorem confined (h : Dressed hosts d d') : Confined hosts d.view d'.view := by
  refine .of_steps h.steady.forest (fun x out => ?_) fun {x n m} out _ node node' => ?_
  · cases node : d.view x with
    | none => exact h.gone node
    | some n => exact h.others (fun mem => out ⟨x, mem, .self⟩) node
  · rw [h.others out node] at node'
    cases node'
    exact .inl rfl

end Dressed

/-! ## Attributes -/

theorem exists_element (node : d.view g = some n) (element : n.data.isElement = true) :
    ∃ tag own, d.view g = some {
      data := .element tag own, parent := n.parent, children := n.children } := by
  obtain ⟨data, parent, children⟩ := n
  cases data with
  | element tag own => exact ⟨tag, own, node⟩
  | text | comment | fragment | doctype => cases element

theorem setAttributeValue_dressed (h : d.Steady) (node : d.view g = some n)
    (element : n.data.isElement = true) (name : String) (value : Value) :
    ∃ d', setAttributeValue g name value d = .ok () d' ∧ Dressed [g] d d' := by
  obtain ⟨tag, own, host⟩ := exists_element node element
  obtain ⟨d', run, sound, host', others⟩ := setAttributeValue_ok h.sound host name value
  exact ⟨d', run, .of_node (h.ok run (by rwa [after_ok run]) fun l =>
    l.setAttributeValue g name value) host host' rfl rfl rfl others⟩

theorem removeAttribute_dressed (h : d.Steady) (node : d.view g = some n)
    (element : n.data.isElement = true) (name : String) :
    ∃ d', removeAttribute g name d = .ok () d' ∧ Dressed [g] d d' := by
  obtain ⟨tag, own, host⟩ := exists_element node element
  obtain ⟨d', run, sound, host', others⟩ := removeAttribute_ok h.sound host name
  exact ⟨d', run, .of_node (h.ok run (by rwa [after_ok run]) fun l => l.removeAttribute g name)
    host host' rfl rfl rfl others⟩

/-! ## Giving nodes up -/

/-- What is not below a node that is given up is only pruned. -/
theorem release_frame (h : d.Steady) (node : d.view c = some n) :
    ∃ d', release c d = .ok () d' ∧ d'.Steady ∧ Thinned (View.prune [c] d.view) d'.view ∧
      d'.view c = none ∧ ∀ x, ¬d.view.Above c x → d'.view x = View.prune [c] d.view x := by
  obtain ⟨d₁, detached, view⟩ := detach_ok h.forest.linked node
  obtain ⟨d', run, thinned, gone⟩ := release_ok h.forest node
  have whole : release c d = .ok () (d₁.vacateAll [c]) := by
    unfold release
    rw [bind_ok detached]
    rfl
  have same : d' = d₁.vacateAll [c] := by
    rw [run] at whole
    cases whole
    rfl
  refine ⟨d', run, h.ok run (keeps_release c d h.sound) fun l => l.release c, thinned, gone,
    fun x out => ?_⟩
  rw [same, ← view]
  refine vacateAll_frame (d.view.Above c) d₁ [c] (fun y mem => ?_) (fun {y k} above there z mem => ?_) out
  · rw [List.mem_singleton.1 mem]
    exact .self
  · rw [view] at there
    obtain ⟨l, old, -, -, kids⟩ := prune_eq_some there
    rw [kids] at mem
    obtain ⟨i, child, parent⟩ := h.forest.child old (List.mem_filter.1 mem).1
    exact .step child parent above

theorem release_root (h : d.Steady) (node : d.view c = some n) (root : n.parent = none) :
    ∃ d', release c d = .ok () d' ∧ d'.Steady ∧ Confined [c] d.view d'.view ∧ d'.view c = none ∧
      ∀ x, ¬d.view.Above c x → d'.view x = d.view x := by
  obtain ⟨d', run, steady, thinned, gone, frame⟩ := release_frame h node
  rw [h.forest.linked.prune_root node root] at thinned frame
  refine ⟨d', run, steady, .of_steps steady.forest (fun x out => ?_) fun _ _ there there' => ?_,
    gone, frame⟩
  · exact frame x (mt inside_singleton.2 out)
  · rw [thinned.node there'] at there
    cases there
    exact .inl rfl

theorem release_child (h : d.Steady) (host : d.view g = some n) (mem : c ∈ n.children) :
    ∃ d', release c d = .ok () d' ∧ d'.view g = some {
      n with children := n.children.filter (· != c) } ∧ Tended g d d' := by
  obtain ⟨m, node, parent⟩ := h.forest.child host mem
  have below : ¬d.view.Above c g := (h.forest.rooted node).not_above_parent node parent
  have apart : g ≠ c := by
    rintro rfl
    exact below .self
  obtain ⟨d', run, steady, thinned, gone, frame⟩ := release_frame h node
  rw [← h.forest.linked.prune_child node parent] at frame
  have host' : d'.view g = some { n with children := n.children.filter (· != c) } := by
    rw [frame g below, alter_of_ne _ _ apart, alter_self _ host]
  refine ⟨d', run, host', steady, .of_steps steady.forest (fun x out => ?_) ?_, n, _, host, host', rfl, rfl⟩
  · rw [inside_singleton] at out
    have under : ¬d.view.Above c x := fun above => out ((Above.step node parent .self).trans above)
    have xc : x ≠ c := by
      rintro rfl
      exact under .self
    have xg : x ≠ g := by
      rintro rfl
      exact out .self
    rw [frame x under, alter_of_ne _ _ xc, alter_of_ne _ _ xg]
  · intro x k l out inside there there'
    obtain ⟨i, old, -, up, -⟩ := prune_eq_some (thinned.node there')
    rw [there] at old
    cases old
    have other : x ≠ c := by
      rintro rfl
      rw [gone] at there'
      cases there'
    rw [if_neg (by simpa using other)] at up
    exact .inl up

/-- All children of a node are given up. -/
theorem discardChildren_tended (h : d.Steady) (host : d.view g = some n) :
    ∃ d', discardChildren g d = .ok () d' ∧ d'.view g = some { n with children := [] } ∧
      Tended g d d' := by
  obtain ⟨data, parent, children⟩ := n
  suffices loop : ∃ d', (do for c in children do release c : Edit Unit) d = .ok () d' ∧
      d'.view g = some { data, parent, children := [] } ∧ Tended g d d' by
    obtain ⟨d', run, rest⟩ := loop
    refine ⟨d', ?_, rest⟩
    unfold discardChildren
    rw [bind_ok (ask_ok (children_eq_ok host))]
    exact run
  induction children generalizing d with
  | nil => exact ⟨d, loop_nil _ d, host, .refl h host⟩
  | cons c children ih =>
      obtain ⟨d₁, first, host₁, tended₁⟩ := release_child h host (List.mem_cons_self ..)
      have left : (c :: children).filter (· != c) = children := by
        rw [← (h.forest.children_nodup host).erase_eq_filter, List.erase_cons_head]
      dsimp only at host₁
      rw [left] at host₁
      obtain ⟨d', others, host', tended⟩ := ih tended₁.steady host₁
      exact ⟨d', loop_cons first others, host', tended₁.trans tended⟩

/-! ## New nodes -/

theorem confined_planted {ι : Type} {t : NodeTree ι} {s : NodeTree NodeId} (h : d.Steady)
    (planted : Planted d d' none t s) : Confined [s.label] d.view d'.view := by
  refine .of_new h.forest (planted.trades.fresh _ (label_mem_labels s) (by simp)) ?_ ?_
  · intro x n node
    exact ⟨planted.trades.kept node (by simp),
      planted.trades.not_above h.forest (label_mem_labels s) node⟩
  · intro x n fresh node
    by_cases mem : x ∈ s.labels
    · exact planted.stands.above mem
    · rw [planted.trades.frame x (by simp) mem, fresh] at node
      cases node

theorem moved_apply {p x : NodeId} {k : Nat} {l : Node} (node : d.view x = some l) :
    ∃ l', d.moved p c m k x = some l' ∧ l'.data = l.data ∧
      l'.parent = if x ∈ insertable c m then some p else l.parent :=
  ⟨_, moved_record node, rfl, rfl⟩

/-- The nodes that are moved come among the children of their new parent. -/
theorem moved_host {p : NodeId} {k : Nat} (host : d.view p = some n) :
    ∃ n', d.moved p c m k p = some n' ∧
      n'.children = splice k (insertable c m) (n.children.filter (· ∉ insertable c m)) :=
  ⟨_, moved_record host, if_pos rfl⟩

/-- Only the nodes that are moved, those they come from and the one they go to are changed. -/
theorem moved_of_off (f : d.view.Forest) {p x : NodeId} {k : Nat} (other : x ≠ p)
    (out : x ∉ insertable c m)
    (apart : ∀ u ∈ insertable c m, ∀ l, d.view u = some l → l.parent ≠ some x) :
    d.moved p c m k x = d.view x := by
  rw [moved]
  cases there : d.view x with
  | none => simp [graft, View.prune, there]
  | some l =>
      have whole : l.children.filter (· ∉ insertable c m) = l.children := by
        refine List.filter_eq_self.2 fun u mem => ?_
        rw [decide_eq_true_iff]
        intro listed
        obtain ⟨i, child, parent⟩ := f.child there mem
        exact apart u listed i child parent
      rw [graft_apply (prune_apply there)]
      simp only [if_neg out, if_neg other, whole]

/-- Trees below a root that are moved come behind what their new parent carries. -/
theorem carries_of_moved (f : d.view.Forest) (host : d.view g = some n) (node : d.view c = some m)
    (root : m.parent = none) (apart : ¬d.view.Above c g) {p : Option NodeId}
    {us : List (NodeTree NodeId)} (stands : d.view.StandAll p us) (nodup : (labelsAll us).Nodup)
    (tops : us.map label = insertable c m) (below : ∀ x ∈ labelsAll us, d.view.Above c x)
    (outer : ∀ y, p = some y → y = c ∧ c ∉ labelsAll us)
    (view : d'.view = d.moved g c m n.children.length) {content : List (NodeTree Unit)}
    (h : d.Carries g content) : d'.Carries g (content ++ us.map shape) := by
  have highest : ¬d.view.Above g c := by
    intro above
    rw [above.eq_of_top node root] at apart
    exact apart .self
  have away : ∀ x ∈ labelsAll us, ¬d.view.Above g x := fun x mem above =>
    ((below x mem).total above).elim apart highest
  have listed : ∀ u ∈ insertable c m, u ∈ labelsAll us := fun u mem =>
    (map_label_sublist us).subset (tops ▸ mem)
  have parents : ∀ u ∈ insertable c m, ∀ l, d.view u = some l → l.parent = p := by
    intro u mem l there
    rw [← tops] at mem
    obtain ⟨t, inside, rfl⟩ := List.mem_map.1 mem
    have top := there.symm.trans (standAll_iff.1 stands t inside).top
    rw [Option.some.inj top]
  obtain ⟨n', host', children⟩ := moved_host (c := c) (m := m) (k := n.children.length) host
  have kept : n.children.filter (· ∉ insertable c m) = n.children := by
    refine List.filter_eq_self.2 fun u mem => ?_
    rw [decide_eq_true_iff]
    intro inside
    obtain ⟨l, child, parent⟩ := f.child host mem
    exact away u (listed u inside) (.step child parent .self)
  rw [kept, splice, List.take_length, List.drop_length, List.append_nil, ← tops] at children
  refine h.gain host (view ▸ host') children (standAll_reparent stands nodup ?_ ?_) ?_ f
  · intro x mem l there
    have inside : x ∈ labelsAll us := (map_label_sublist us).subset mem
    have other : x ≠ g := by
      rintro rfl
      exact away x inside .self
    have whole : l.children.filter (· ∉ insertable c m) = l.children := by
      refine List.filter_eq_self.2 fun u own => ?_
      rw [decide_eq_true_iff]
      intro taken
      obtain ⟨k, child, parent⟩ := f.child there own
      obtain ⟨rfl, out⟩ := outer x ((parents u taken k child).symm.trans parent)
      exact out inside
    rw [view, moved, graft_apply (prune_apply there), whole]
    simp only [if_neg other, if_pos (tops ▸ mem)]
  · intro x mem out
    rw [view]
    refine moved_of_off f ?_ (tops ▸ out) fun u taken l there parent => ?_
    · rintro rfl
      exact away x mem .self
    · obtain ⟨rfl, alien⟩ := outer x ((parents u taken l there).symm.trans parent)
      exact alien mem
  · intro x above other
    rw [view]
    refine moved_of_off f other (fun mem => away x (listed x mem) above) fun u taken l there parent => ?_
    obtain ⟨rfl, -⟩ := outer x ((parents u taken l there).symm.trans parent)
    exact highest above

/-- The trees of a fragment come behind what their new parent carries. -/
theorem carries_of_fragment (f : d.view.Forest) (host : d.view g = some n)
    (node : d.view c = some m) (root : m.parent = none) (fragment : m.data = .fragment)
    (apart : ¬d.view.Above c g) {us : List (NodeTree NodeId)}
    (children : m.children = us.map label) (stands : d.view.StandAll (some c) us)
    (view : d'.view = d.moved g c m n.children.length) {content : List (NodeTree Unit)}
    (h : d.Carries g content) : d'.Carries g (content ++ us.map shape) := by
  have whole : d.view.Stands none (.node c m.data us) := by
    refine ⟨?_, stands⟩
    rw [node, ← children, ← root]
  exact carries_of_moved f host node root apart stands
    (f.nodup_labelsAll us c stands (children ▸ f.children_nodup node))
    (by rw [insertable_fragment fragment, children])
    (fun x mem => whole.above (List.mem_cons_of_mem c mem))
    (fun y own => ⟨(Option.some.inj own).symm, f.not_mem_labelsAll stands⟩) view h

/-- A root is put behind the children of a node that is not below it, or its children are if it
is a fragment. -/
theorem append_root (h : d.Steady) (host : d.view g = some n)
    (container : n.data.isContainer = true) (node : d.view c = some m) (root : m.parent = none)
    (apart : ¬d.view.Above c g) :
    ∃ d', append g c d = .ok () d' ∧ d'.Steady ∧ d'.view = d.moved g c m n.children.length ∧
      Confined [c, g] d.view d'.view ∧
      (∃ k, d'.view g = some k ∧ k.data = n.data ∧ k.parent = n.parent) ∧
      ∃ k, d'.view c = some k ∧ k.data = m.data ∧ (m.data ≠ .fragment → k.parent = some g) := by
  obtain ⟨d', run, view⟩ := append_moved h.forest.linked host container node fun _ => apart
  have steady := h.ok run (h.sound.append fun _ entangled => apart entangled.2) fun l => l.append g c
  have taken : ∀ u ∈ insertable c m, ∃ k, d.view u = some k ∧ (k.parent = some c ∨ u = c ∧ k = m) := by
    intro u mem
    by_cases fragment : m.data = .fragment
    · rw [insertable_fragment fragment] at mem
      exact (h.forest.child node mem).imp fun _ => .imp_right .inl
    · rw [insertable_solid fragment] at mem
      cases List.mem_singleton.1 mem
      exact ⟨m, node, .inr ⟨rfl, rfl⟩⟩
  have below : ∀ u ∈ insertable c m, d.view.Above c u := by
    intro u mem
    obtain ⟨k, child, parent | ⟨rfl, -⟩⟩ := taken u mem
    · exact .step child parent .self
    · exact .self
  refine ⟨d', run, steady, view, .of_steps steady.forest (fun x outside => ?_) ?_, ?_, ?_⟩
  · have xc : ¬d.view.Above c x := fun above => outside ⟨c, by simp, above⟩
    rw [view]
    refine moved_of_off h.forest (fun same => outside ⟨g, by simp, same ▸ .self⟩)
      (fun mem => xc (below x mem)) fun u mem l there parent => ?_
    obtain ⟨k, child, up | ⟨rfl, rfl⟩⟩ := taken u mem
    · rw [there] at child
      cases child
      rw [parent] at up
      cases up
      exact xc .self
    · rw [there] at child
      cases child
      rw [root] at parent
      cases parent
  · intro x k l _ _ there there'
    obtain ⟨l', same, -, parent⟩ := moved_apply (p := g) (c := c) (m := m) (k := n.children.length) there
    rw [← view, there'] at same
    cases same
    split at parent
    · exact .inr ⟨g, by simp, parent⟩
    · exact .inl parent
  · obtain ⟨k, there, data, parent⟩ :=
      moved_apply (p := g) (c := c) (m := m) (k := n.children.length) host
    rw [if_neg fun mem => apart (below g mem)] at parent
    exact ⟨k, view ▸ there, data, parent⟩
  · obtain ⟨k, there, data, parent⟩ :=
      moved_apply (p := g) (c := c) (m := m) (k := n.children.length) node
    refine ⟨k, view ▸ there, data, fun solid => ?_⟩
    rwa [insertable_solid solid, if_pos (List.mem_singleton.2 rfl)] at parent

/-! ## Content -/

/-- A new text is put behind the children of a node. -/
theorem appendText_tended (h : d.Steady) (host : d.view g = some n)
    (container : n.data.isContainer = true) (words : String) :
    ∃ d', (do append g (← createText words) : Edit Unit) d = .ok () d' ∧ Tended g d d' ∧
      ∀ content, d.Carries g content → d'.Carries g (content ++ [.node () (.text words) []]) := by
  have planted := planted_create h.sound.accounted (.text words)
  have created : createText words d =
      .ok (d.create (.text words)).1 (d.create (.text words)).2 := change_run _ d
  have distinct : AttributesDistinct (.text words) := List.nodup_nil
  have steady := h.ok created (keeps_create distinct d h.sound) fun l => l.create _
  generalize (d.create (.text words)).1 = c at planted created
  generalize (d.create (.text words)).2 = d₁ at planted created steady
  have host₁ := planted.trades.kept host (by simp)
  have first : Confined [c] d.view d₁.view := confined_planted h planted
  have apart₁ : ¬d₁.view.Above c g := planted.trades.not_above h.forest (by simp) host
  obtain ⟨d', run, steady', view, confined, ⟨k, host', data, parent⟩, l, node, -, below⟩ :=
    append_root steady host₁ container planted.stands.1 rfl apart₁
  have fresh := planted.trades.fresh c (by simp) (by simp)
  refine ⟨d', ?_, ⟨steady', ?_, n, k, host, host', data, parent⟩, fun content carries => ?_⟩
  · rw [bind_ok created]
    exact run
  · have whole := (first.mono (by simp)).trans confined
    have inside : Inside [g] d'.view c := inside_singleton.2 (.step node (below nofun) .self)
    rw [Confined, h.forest.outside_cons_of_dead fresh, outside_cons_of_inside inside] at whole
    exact whole
  · have carries₁ : d₁.Carries g content := carries.congr fun x above => by
      refine planted.trades.frame x (by simp) fun mem => ?_
      rw [List.mem_singleton.1 mem] at above
      cases above with
      | self =>
          rw [fresh] at host
          cases host
      | step node =>
          rw [fresh] at node
          cases node
    have text : d₁.view.StandAll none [.node c (.text words) []] := ⟨planted.stands, trivial⟩
    exact carries_of_moved steady.forest host₁ planted.stands.1 rfl apart₁ text (by simp) rfl
      (fun x mem => by rw [show x = c by simpa using mem]; exact .self)
      (fun y same => by cases same) view carries₁

theorem setText_ok {old : String} (node : d.view c = some n) (text : n.data = .text old)
    (words : String) :
    setText c words d = .ok () (d.modify c fun n => { n with data := .text words }) := by
  unfold setText
  rw [bind_ok (ask_ok (data_eq_ok node)), text]
  exact modifyNode_ok _ node

/-- A text that is the first below a node gets other words. -/
theorem setText_tended (h : d.Steady) (host : d.view g = some n)
    (first : n.children.head? = some c) {k : Node} (child : d.view c = some k) {old : String}
    (text : k.data = .text old) (words : String) :
    ∃ d', setText c words d = .ok () d' ∧ Tended g d d' ∧ ∀ below more,
      d.Carries g (.node () k.data below :: more) →
        d'.Carries g (.node () (.text words) below :: more) := by
  have run := setText_ok child text words
  have steady := h.ok run (keeps_setText c words d h.sound) fun l => l.setText c words
  have view := d.view_modify c fun n => { n with data := .text words }
  generalize d.modify c (fun n => { n with data := .text words }) = d' at run steady view
  obtain ⟨k', there, up⟩ := h.forest.child host (List.mem_of_mem_head? first)
  rw [child] at there
  cases there
  have own : d'.view c = some { k with data := .text words } := by
    rw [view, alter_self _ child]
  have others : ∀ x, x ≠ c → d'.view x = d.view x := fun x other => by
    rw [view, alter_of_ne _ _ other]
  have apart : g ≠ c := by
    rintro rfl
    exact (h.forest.rooted child).not_above_parent child up .self
  refine ⟨d', run, ⟨steady, ?_, n, n, host, (others g apart).trans host, rfl, rfl⟩, ?_⟩
  · refine .of_steps steady.forest (fun x out => others x ?_) fun {x m l} _ _ there there' => ?_
    · rintro rfl
      exact out (inside_singleton.2 (.step child up .self))
    · by_cases same : x = c
      · subst same
        rw [child] at there
        rw [own] at there'
        cases there
        cases there'
        exact .inl rfl
      · rw [others x same, there] at there'
        cases there'
        exact .inl rfl
  · intro below more carries
    obtain ⟨below', kids, children, stands, same⟩ := carries.head host first child
    obtain ⟨⟨-, rfl⟩, rfl⟩ : (k.data = k.data ∧ below = below'.map shape) ∧ more = kids.map shape := by
      simpa using same
    have nodup := h.forest.nodup_labelsAll _ g stands (by
      rw [List.map_cons, NodeTree.label, ← children]
      exact h.forest.children_nodup host)
    have out : c ∉ labelsAll kids := by
      rw [labelsAll_cons, labels_node, List.cons_append] at nodup
      exact fun mem => (List.nodup_cons.1 nodup).1 (List.mem_append_right _ mem)
    have changed := standAll_redata (w := d'.view) (f := fun _ => .text words)
      (fun m top => by rw [own, Option.some.inj (child.symm.trans top)]) others _ _ stands nodup
    rw [reviseAll, revise, if_pos rfl, reviseAll_of_not_mem _ _ out] at changed
    exact ⟨n, .node c (.text words) below' :: kids, (others g apart).trans host, children, changed,
      by rw [List.map_cons, shape_node]⟩

/-- The content of a node gives way to the nodes of some markup. -/
theorem setInner_tended (h : d.Steady) (host : d.view g = some n)
    (container : n.data.isContainer = true) (markup : String) :
    ∃ d', setInner g markup d = .ok () d' ∧ Tended g d d' ∧ d'.Carries g (parse markup).1 := by
  obtain ⟨F, label, planted⟩ :=
    planted_plant (.node () .fragment (parse markup).1) none d h.sound.accounted
  have parsed := parseMarkup_clean h.sound.accounted markup (.inl h.lenient) planted.trades.strict
  have steady₁ := h.ok parsed (keeps_parseMarkup markup d h.sound) fun l => l.parseMarkup markup
  rw [← label] at parsed
  generalize (d.plant none (.node () .fragment (parse markup).1)).2 = d₁ at *
  obtain ⟨fragment, trees⟩ := planted.parts
  have host₁ := planted.trades.kept host (by simp)
  have apart₁ := planted.trades.not_above h.forest (label_mem_labels F) host
  obtain ⟨d₂, emptied, host₂, tended₂⟩ := discardChildren_tended steady₁ host₁
  have top₁ := planted.stands.top
  have top₂ := (tended₂.confined.node top₁ fun inside => apart₁ (by
    rw [(inside_singleton.1 inside).eq_of_top top₁ rfl]
    exact .self)).1
  have apart₂ : ¬d₂.view.Above F.label g := by
    rwa [tended₂.confined.above_top steady₁.forest host₁ host₂ rfl]
  obtain ⟨d₃, moved, steady₃, view₃, confined₃, ⟨k, host₃, data, parent⟩, l, top₃, same, -⟩ :=
    append_root tended₂.steady host₂ container top₂ rfl apart₂
  have apart₃ : ¬d₃.view.Above F.label g := by
    rw [confined₃.above_iff tended₂.steady.forest host₂ host₃ parent]
    · exact apart₂
    · rintro p up ⟨a, mem, above⟩
      simp only [List.mem_cons, List.not_mem_nil, or_false] at mem
      rcases mem with rfl | rfl
      · exact apart₂ (.step host₂ up above)
      · exact (tended₂.steady.forest.rooted host₂).not_above_parent host₂ up above
  obtain ⟨d', released, steady', confined', gone, frame⟩ :=
    release_root steady₃ top₃ (steady₃.forest.fragment_parent top₃ (same.trans fragment))
  have rootless₃ := steady₃.forest.fragment_parent top₃ (same.trans fragment)
  refine ⟨d', ?_, ⟨steady', ?_, n, k, host, (frame g apart₃).trans host₃, data, parent⟩, ?_⟩
  · unfold setInner
    rw [bind_ok (requireContainer_ok host container), bind_ok parsed, bind_ok emptied, bind_ok moved]
    exact released
  · have whole : Confined [F.label, g] d.view d'.view :=
      (((confined_planted h planted).mono (by simp)).trans (tended₂.confined.mono (by simp))).trans
        (confined₃.trans (confined'.mono (by simp)))
    exact whole.forget h.forest steady'.forest
      (planted.trades.fresh _ (label_mem_labels F) (by simp)) gone
  · have kids₂ : d₂.view.StandAll (some F.label) F.children := by
      refine standAll_congr _ _ (fun x mem => ?_) planted.stands.children
      have under := planted.stands.above (show x ∈ F.labels by cases F; exact .tail _ mem)
      obtain ⟨l, there⟩ := Option.ne_none_iff_exists'.1 (planted.stands.live
        (show x ∈ F.labels by cases F; exact .tail _ mem))
      rw [there]
      refine (tended₂.confined.node there fun inside => ?_).1
      rcases under.total (inside_singleton.1 inside) with above | above
      · exact apart₁ above
      · rw [above.eq_of_top top₁ rfl] at apart₁
        exact apart₁ .self
    have carries₃ := carries_of_fragment tended₂.steady.forest host₂ top₂ rfl fragment apart₂ rfl
      kids₂ view₃ (.nothing host₂ rfl)
    rw [trees, List.nil_append] at carries₃
    refine carries₃.congr fun x below => frame x fun above => ?_
    rcases above.total below with high | high
    · exact apart₃ high
    · rw [high.eq_of_top top₃ rootless₃] at apart₃
      exact apart₃ .self

/-- The children of a root come behind those of a node that is not below it, and the root is
given up. -/
theorem moveChildren_release (h : d.Steady) (host : d.view g = some n)
    (container : n.data.isContainer = true) (holder : d.view q = some m) (root : m.parent = none)
    (apart : ¬d.view.Above q g) :
    ∃ d₁ d', moveChildren q g d = .ok () d₁ ∧ release q d₁ = .ok () d' ∧ d'.Steady ∧
      Confined [q, g] d.view d'.view ∧ d'.view q = none ∧
      (∃ k, d'.view g = some k ∧ k.data = n.data ∧ k.parent = n.parent) ∧
      ∀ content more, d.Carries g content → d.Carries q more → d'.Carries g (content ++ more) := by
  have other : g ≠ q := by
    rintro rfl
    exact apart .self
  have below : ∀ c ∈ m.children, d.view.Above q c := by
    intro c mem
    obtain ⟨k, child, parent⟩ := h.forest.child holder mem
    exact .step child parent .self
  obtain ⟨d₁, moved, sound₁, host₁, holder₁, kids, frame₁⟩ :=
    moveChildren_ok h.sound host container holder other fun c mem above =>
      apart ((below c mem).trans above)
  have steady₁ := h.ok moved (by rwa [after_ok moved]) fun l => l.moveChildren q g
  have confined₁ : Confined [q, g] d.view d₁.view := by
    refine .of_steps steady₁.forest (fun x out => ?_) fun {x k l} out _ there there' => ?_
    · refine frame₁ x (fun same => out ⟨g, by simp, same ▸ .self⟩)
        (fun same => out ⟨q, by simp, same ▸ .self⟩) fun mem => out ⟨q, by simp, below x mem⟩
    · simp only [List.mem_cons, List.not_mem_nil, or_false, not_or] at out
      by_cases mem : x ∈ m.children
      · rw [kids x mem k there] at there'
        cases there'
        exact .inr ⟨g, by simp, rfl⟩
      · rw [frame₁ x out.2 out.1 mem, there] at there'
        cases there'
        exact .inl rfl
  obtain ⟨d', released, steady', confined', gone, frame⟩ := release_root steady₁ holder₁ root
  have host' :=
    (frame g (steady₁.forest.not_above_of_childless holder₁ rfl other.symm)).trans host₁
  refine ⟨d₁, d', moved, released, steady', confined₁.trans (confined'.mono (by simp)), gone,
    ⟨_, host', rfl, rfl⟩, fun content more carries ⟨m', us, holder', own, stands, shapes⟩ => ?_⟩
  rw [holder] at holder'
  cases holder'
  have highest : ¬d.view.Above g q := fun above => other (above.eq_of_top holder root)
  have nodup := h.forest.nodup_labelsAll us q stands (own ▸ h.forest.children_nodup holder)
  have under : ∀ x ∈ labelsAll us, d.view.Above q x := fun x mem =>
    Stands.above (p := m.parent) (t := .node q m.data us) ⟨by rw [holder, ← own], stands⟩
      (List.mem_cons_of_mem _ mem)
  have carries₁ : d₁.Carries g (content ++ us.map shape) := by
    refine carries.gain host host₁ (by rw [own]) (standAll_reparent stands nodup ?_ ?_) ?_ h.forest
    · exact fun x mem l there => kids x (own ▸ mem) l there
    · refine fun x mem out => frame₁ x ?_ ?_ (own ▸ out)
      · rintro rfl
        exact apart (under x mem)
      · rintro rfl
        exact h.forest.not_mem_labelsAll stands mem
    · refine fun x above ne => frame₁ x ne ?_ fun mem => ?_
      · rintro rfl
        exact highest above
      · obtain ⟨k, child, parent⟩ := h.forest.child holder mem
        exact highest (above.of_parent child parent ne.symm)
  rw [← shapes]
  refine carries₁.congr fun x above => frame x ?_
  refine steady₁.forest.not_above_of_childless holder₁ rfl fun same => ?_
  rw [← same] at above
  exact other (above.eq_of_top holder₁ root)

end Document

end Stencil
