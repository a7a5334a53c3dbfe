import Stencil.Proofs.Document.Cloning
import Stencil.Proofs.Document.Soundness

/-! # Single edits of sound documents

What one edit does to the records of the nodes it is about, when it is not refused: all
other nodes are left as they are, and the document stays sound.
-/

namespace Stencil

open Markup NodeTree

namespace View

variable {v w : View}

/-- What is above a node depends on the parents of the nodes above it only. -/
theorem Above.of_chain {a x : NodeId} (rooted : Rooted v x) (h : Above w a x)
    (same : ∀ y n, Above v y x → v y = some n → ∃ m, w y = some m ∧ m.parent = n.parent) :
    Above v a x := by
  induction rooted with
  | top node top =>
      obtain ⟨m, node', parent⟩ := same _ _ .self node
      rw [h.eq_of_top node' (parent.trans top)]
      exact .self
  | @under x p n node parent _ ih =>
      by_cases own : a = x
      · rw [own]
        exact .self
      · obtain ⟨m, node', kept⟩ := same _ _ .self node
        have above : Above w a p := h.of_parent node' (kept.trans parent) own
        refine .step node parent (ih above fun y k up => same y k (.step node parent up))

/-- A node without children is above no other. -/
theorem Forest.not_above_of_childless (f : Forest v) {c x : NodeId} {n : Node} (node : v c = some n)
    (childless : n.children = []) (apart : c ≠ x) : ¬Above v c x := by
  intro above
  induction above with
  | self => exact apart rfl
  | @step y p m node' parent above ih =>
      obtain ⟨k, up, mem⟩ := f.parent node' parent
      by_cases same : c = p
      · rw [← same, node] at up
        cases up
        rw [childless] at mem
        cases mem
      · exact ih same

theorem Forest.not_mem_children (f : Forest v) {p c : NodeId} {n m : Node} (host : v p = some n)
    (node : v c = some m) (other : m.parent ≠ some p) : c ∉ n.children := by
  intro mem
  obtain ⟨k, child, parent⟩ := f.child host mem
  rw [node] at child
  cases child
  exact other parent

/-! ## What stands in a forest -/

/-- Of two nodes above a third one is above the other. -/
theorem Above.total {a b x : NodeId} (ha : Above v a x) (hb : Above v b x) :
    Above v a b ∨ Above v b a := by
  induction ha with
  | self => exact .inr hb
  | @step x p n node parent above ih =>
      by_cases same : b = x
      · rw [same]
        exact .inl (.step node parent above)
      · exact ih (hb.of_parent node parent same)

/-- The top of a standing tree is above all of its nodes. -/
theorem Stands.above {p : Option NodeId} {t : NodeTree NodeId} (h : v.Stands p t) {x : NodeId}
    (mem : x ∈ t.labels) : Above v t.label x := by
  obtain ⟨q, s, inside, rfl⟩ := exists_within p t x mem
  induction inside with
  | self => exact .self
  | @child q id data children c inside listed ih =>
      have node := (h.within (inside.child listed)).top
      exact .step node rfl (ih inside.label_mem)

/-- No node is among the nodes below its children. -/
theorem Linked.not_mem_labelsAll (f : Linked v) {p : NodeId} {ts : List (NodeTree NodeId)}
    (stands : v.StandAll (some p) ts) : p ∉ labelsAll ts := by
  intro mem
  obtain ⟨t, listed, q, s, inside, rfl⟩ := exists_withinAll (some p) ts p mem
  have child := standAll_iff.1 stands t listed
  exact (f.rooted child.top).not_above_parent child.top rfl (child.above inside.label_mem)

mutual

theorem Linked.nodup_labels (f : Linked v) : (t : NodeTree NodeId) → (p : Option NodeId) →
    v.Stands p t → t.labels.Nodup
  | .node id _ children, _, h => by
      rw [labels_node, List.nodup_cons]
      exact ⟨f.not_mem_labelsAll h.2, f.nodup_labelsAll children id h.2 (f.children_nodup h.1)⟩

/-- Trees that stand side by side have no node in common. -/
theorem Linked.nodup_labelsAll (f : Linked v) : (ts : List (NodeTree NodeId)) → (p : NodeId) →
    v.StandAll (some p) ts → (ts.map NodeTree.label).Nodup → (labelsAll ts).Nodup
  | [], _, _, _ => List.nodup_nil
  | t :: ts, p, h, nodup => by
      obtain ⟨out, others⟩ := List.nodup_cons.1 nodup
      rw [labelsAll_cons, List.nodup_append]
      refine ⟨f.nodup_labels t _ h.1, f.nodup_labelsAll ts p h.2 others, ?_⟩
      intro x mem y memAll same
      subst same
      obtain ⟨s, listed, q, u, inside, rfl⟩ := exists_withinAll (some p) ts x memAll
      have sibling := standAll_iff.1 h.2 s listed
      have apart : t.label ≠ s.label := fun same => out (same ▸ List.mem_map_of_mem listed)
      have roots := f.rooted h.1.top
      have roots' := f.rooted sibling.top
      rcases (h.1.above mem).total (sibling.above inside.label_mem) with above | above
      · exact roots.not_above_parent h.1.top rfl (above.of_parent sibling.top rfl apart)
      · exact roots'.not_above_parent sibling.top rfl (above.of_parent h.1.top rfl apart.symm)

end

theorem Forest.not_mem_labelsAll (f : Forest v) {p : NodeId} {ts : List (NodeTree NodeId)}
    (stands : v.StandAll (some p) ts) : p ∉ labelsAll ts :=
  f.linked.not_mem_labelsAll stands

theorem Forest.nodup_labels (f : Forest v) (t : NodeTree NodeId) (p : Option NodeId)
    (stands : v.Stands p t) : t.labels.Nodup :=
  f.linked.nodup_labels t p stands

theorem Forest.nodup_labelsAll (f : Forest v) (ts : List (NodeTree NodeId)) (p : NodeId)
    (stands : v.StandAll (some p) ts) (nodup : (ts.map NodeTree.label).Nodup) :
    (labelsAll ts).Nodup :=
  f.linked.nodup_labelsAll ts p stands nodup

end View

namespace Document

open Edit View

variable {d : Document} {p c : NodeId} {q : Option NodeId} {data : NodeData}

/-! ## New nodes -/

theorem create_ok (h : d.Sound) (data : NodeData) (distinct : AttributesDistinct data) :
    ∃ c d', d.create data = (c, d') ∧ d'.Sound ∧ d.view c = none ∧
      d'.view c = some { data, parent := none, children := [] } ∧
      ∀ x, x ≠ c → d'.view x = d.view x := by
  obtain ⟨fresh, view, -⟩ := h.accounted.allocate { data, parent := none, children := [] }
  refine ⟨(d.create data).1, (d.create data).2, rfl, sound_create h distinct, fresh, ?_,
    fun x other => ?_⟩
  · exact (congrFun view _).trans (put_self ..)
  · exact (congrFun view x).trans (put_of_ne _ _ other)

theorem createText_ok (h : d.Sound) (value : String) :
    ∃ c d', createText value d = .ok c d' ∧ d'.Sound ∧ d.view c = none ∧
      d'.view c = some { data := .text value, parent := none, children := [] } ∧
      ∀ x, x ≠ c → d'.view x = d.view x := by
  obtain ⟨c, d', run, rest⟩ := create_ok h (.text value) List.nodup_nil
  refine ⟨c, d', ?_, rest⟩
  unfold createText
  rw [change_run, run]

theorem createElement_ok (h : d.Sound) (name : String) :
    ∃ c d', createElement name d = .ok c d' ∧ d'.Sound ∧ d.view c = none ∧
      d'.view c = some { data := .element (Text.lower name) [], parent := none, children := [] } ∧
      ∀ x, x ≠ c → d'.view x = d.view x := by
  obtain ⟨c, d', run, rest⟩ := create_ok h (.element (Text.lower name) []) List.nodup_nil
  refine ⟨c, d', ?_, rest⟩
  unfold createElement
  rw [change_run, run]

/-- A copy of a standing tree stands alone. -/
theorem copyTree_ok {p : Option NodeId} {P : NodeTree NodeId}
    (accounted : d.Accounted) (stands : d.view.Stands p P) (nodup : P.labels.Nodup) :
    ∃ C d', copyTree P.label d = .ok C.label d' ∧ Planted d d' none P C := by
  obtain ⟨C, top, planted⟩ := planted_plant P none d accounted
  exact ⟨C, _, by rw [copyTree_eq accounted stands nodup, top], planted⟩

theorem keeps_copyTree (id : NodeId) : Keeps Sound (copyTree id) := by
  intro d h
  cases node : d.view id with
  | none => rwa [after_error (copyTree_refused node)]
  | some n =>
      obtain ⟨t, -, rfl, stands⟩ := exists_tree h.forest node
      rw [after_ok (copyTree_eq h.accounted stands (h.forest.nodup_labels t _ stands))]
      exact sound_plant h (h.forest.fits_of_stands t _ stands)

/-! ## Attributes -/

theorem known_attributes {tag : String} {own : List (String × Value)} {kids : List NodeId}
    (node : d.view c = some { data := .element tag own, parent := q, children := kids }) :
    d.attributes c = .ok own := by
  simp [attributes, data_eq_ok node, bind, Except.bind, pure, Except.pure]

section Known

variable {tag : String} {own : List (String × Value)} {kids : List NodeId}

theorem known_tag
    (node : d.view c = some { data := .element tag own, parent := q, children := kids }) :
    d.tagName c = .ok tag := by
  simp [tagName, data_eq_ok node, bind, Except.bind, pure, Except.pure]

theorem known_names
    (node : d.view c = some { data := .element tag own, parent := q, children := kids }) :
    d.attributeNames c = .ok (own.map Prod.fst) := by
  simp [attributeNames, known_attributes node, bind, Except.bind, pure, Except.pure]

theorem known_value
    (node : d.view c = some { data := .element tag own, parent := q, children := kids })
    (name : String) : d.attributeValue? c name = .ok (own.lookup name) := by
  simp [attributeValue?, known_attributes node, bind, Except.bind, pure, Except.pure]

theorem known_attribute
    (node : d.view c = some { data := .element tag own, parent := q, children := kids })
    (name : String) : d.attribute? c name = .ok ((own.lookup name).map Value.text) := by
  simp [attribute?, known_value node, bind, Except.bind, pure, Except.pure]

theorem known_presence
    (node : d.view c = some { data := .element tag own, parent := q, children := kids })
    (name : String) : d.hasAttribute c name = .ok (own.lookup name).isSome := by
  simp [hasAttribute, known_value node, bind, Except.bind, pure, Except.pure]

end Known

theorem setAttributeValue_ok (h : d.Sound) {tag : String} {own : List (String × Value)}
    {kids : List NodeId}
    (node : d.view c = some { data := .element tag own, parent := q, children := kids })
    (name : String) (value : Value) :
    ∃ d', setAttributeValue c name value d = .ok () d' ∧ d'.Sound ∧
      d'.view c = some {
        data := .element tag (Value.putField name value own), parent := q, children := kids } ∧
      ∀ x, x ≠ c → d'.view x = d.view x := by
  have run : setAttributeValue c name value d = .ok () _ :=
    (bind_ok (ask_ok (known_attributes node))).trans (modifyNode_ok _ node)
  have sound := keeps_setAttributeValue c name value d h
  rw [after_ok run] at sound
  refine ⟨_, run, sound, ?_, fun x other => ?_⟩
  · rw [view_modify, alter_self _ node]
  · rw [view_modify, alter_of_ne _ _ other]

theorem removeAttribute_ok (h : d.Sound) {tag : String} {own : List (String × Value)}
    {kids : List NodeId}
    (node : d.view c = some { data := .element tag own, parent := q, children := kids })
    (name : String) :
    ∃ d', removeAttribute c name d = .ok () d' ∧ d'.Sound ∧
      d'.view c = some {
        data := .element tag (own.filter (·.1 != name)), parent := q, children := kids } ∧
      ∀ x, x ≠ c → d'.view x = d.view x := by
  have run : removeAttribute c name d = .ok () _ :=
    (bind_ok (ask_ok (known_attributes node))).trans (modifyNode_ok _ node)
  have sound := keeps_removeAttribute c name d h
  rw [after_ok run] at sound
  refine ⟨_, run, sound, ?_, fun x other => ?_⟩
  · rw [view_modify, alter_self _ node]
  · rw [view_modify, alter_of_ne _ _ other]

/-! ## Children -/

/-- A new node is put before a child. -/
theorem insertBefore_ok (h : d.Sound) {r : NodeId} {before after : List NodeId} {own : NodeData}
    (host : d.view p = some { data, parent := q, children := before ++ r :: after })
    (node : d.view c = some { data := own, parent := none, children := [] })
    (solid : own ≠ .fragment) (apart : c ≠ p) :
    ∃ d', insertBefore p c r d = .ok () d' ∧ d'.Sound ∧
      d'.view p = some { data, parent := q, children := before ++ c :: r :: after } ∧
      d'.view c = some { data := own, parent := some p, children := [] } ∧
      ∀ x, x ≠ p → x ≠ c → d'.view x = d.view x := by
  have notAbove : ¬d.view.Above c p := h.forest.not_above_of_childless node rfl apart
  have out : c ∉ before ++ r :: after := h.forest.not_mem_children host node nofun
  have other : c ≠ r := by
    intro same
    exact out (by simp [same])
  have container : data.isContainer = true := h.forest.container host (by simp)
  obtain ⟨d₁, take, view⟩ := takeFor_solid host container node solid (h.forest.rooted host)
    notAbove (detach_root node rfl) node
  have host₁ : d₁.view p = some { data, parent := q, children := before ++ r :: after } := by
    rw [view, adopt_apply host]
    simp [apart.symm]
  have index : (before ++ r :: after).findIdx (· == r) = before.length := by
    have first : ∀ x ∈ before, (x == r) = false := by
      intro x mem
      have nodup := h.forest.children_nodup host
      have away := (List.nodup_append.1 nodup).2.2 x mem r (by simp)
      simpa using away
    rw [List.findIdx_append, List.findIdx_cons]
    simp [List.findIdx_eq_length_of_false first]
  have run : insertBefore p c r d = .ok () (d₁.modify p fun n => { n with
      children := n.children.take before.length ++ [c] ++ n.children.drop before.length }) := by
    unfold insertBefore
    rw [if_neg other, bind_ok (discard_ok (place_ok host (by simp))), bind_ok take,
      bind_ok (place_ok host₁ (by simp)), index]
    exact modifyNode_ok _ host₁
  have sound := h.insertBefore (p := p) (c := c) (r := r) fun _ entangled => notAbove entangled.2
  rw [after_ok run] at sound
  refine ⟨_, run, sound, ?_, ?_, fun x hp hc => ?_⟩
  · rw [view_modify, alter_self _ host₁]
    simp
  · rw [view_modify, alter_of_ne _ _ apart, view, adopt_apply node]
    simp
  · rw [view_modify, alter_of_ne _ _ hp, view]
    simp [adopt, hc]

/-- A child is taken out and kept. -/
theorem remove_child_ok (h : d.Sound) {before after : List NodeId} {n : Node}
    (host : d.view p = some { data, parent := q, children := before ++ c :: after })
    (node : d.view c = some n) :
    ∃ d', remove p c d = .ok () d' ∧ d'.Sound ∧
      d'.view p = some { data, parent := q, children := before ++ after } ∧
      d'.view c = some { n with parent := none } ∧
      ∀ x, x ≠ p → x ≠ c → d'.view x = d.view x := by
  obtain ⟨k, child, parent⟩ := h.forest.child host (by simp : c ∈ before ++ c :: after)
  rw [node] at child
  cases child
  obtain ⟨d', run, view⟩ := remove_ok h.forest.linked host (by simp : c ∈ before ++ c :: after)
  have sound := keeps_remove p c d h
  rw [after_ok run] at sound
  have nodup := h.forest.children_nodup host
  have apart : p ≠ c := by
    rintro rfl
    exact (h.forest.rooted node).not_above_parent node parent .self
  have left : (before ++ c :: after).filter (· != c) = before ++ after := by
    rw [← nodup.erase_eq_filter, List.erase_append_right _ fun mem => ?_, List.erase_cons_head]
    exact (List.nodup_append.1 nodup).2.2 c mem c (by simp) rfl
  rw [← h.forest.linked.prune_child node parent] at view
  refine ⟨d', run, sound, ?_, ?_, fun x hp hc => ?_⟩
  · rw [view, alter_of_ne _ _ apart, alter_self _ host, left]
  · rw [view, alter_self _ ((alter_of_ne _ _ apart.symm).trans node)]
  · rw [view, alter_of_ne _ _ hc, alter_of_ne _ _ hp]

/-- A new node takes the place of a child, which is kept. -/
theorem replace_child_ok (h : d.Sound) {r : NodeId} {before after : List NodeId} {own : NodeData}
    {n : Node} (host : d.view p = some { data, parent := q, children := before ++ r :: after })
    (node : d.view c = some { data := own, parent := none, children := [] })
    (solid : own ≠ .fragment) (apart : c ≠ p) (old : d.view r = some n) :
    ∃ d', replace p c r d = .ok () d' ∧ d'.Sound ∧
      d'.view p = some { data, parent := q, children := before ++ c :: after } ∧
      d'.view c = some { data := own, parent := some p, children := [] } ∧
      d'.view r = some { n with parent := none } ∧
      ∀ x, x ≠ p → x ≠ c → x ≠ r → d'.view x = d.view x := by
  have other : c ≠ r := by
    intro same
    exact h.forest.not_mem_children host node nofun (by simp [same])
  obtain ⟨k, child, parent⟩ := h.forest.child host (by simp : r ∈ before ++ r :: after)
  rw [old] at child
  cases child
  have below : r ≠ p := by
    rintro rfl
    exact (h.forest.rooted old).not_above_parent old parent .self
  obtain ⟨d₁, inserted, sound₁, host₁, node₁, frame₁⟩ := insertBefore_ok h host node solid apart
  have old₁ : d₁.view r = some n := (frame₁ r below other.symm).trans old
  have host₁' : d₁.view p = some { data, parent := q, children := (before ++ [c]) ++ r :: after } := by
    simpa using host₁
  obtain ⟨d', removed, sound, host', node', frame⟩ := remove_child_ok sound₁ host₁' old₁
  refine ⟨d', ?_, sound, by simpa using host', ?_, node', fun x hp hc hr => ?_⟩
  · unfold replace
    rw [if_neg other, bind_ok inserted]
    exact removed
  · exact (frame c apart other).trans node₁
  · exact (frame x hp hr).trans (frame₁ x hp hc)

/-- The first child of one node becomes the last child of another. -/
theorem append_child_ok (h : d.Sound) {m : NodeId} {r : Option NodeId} {own : NodeData}
    {kids rest : List NodeId} {n : Node}
    (host : d.view p = some { data, parent := q, children := kids })
    (container : data.isContainer = true)
    (holder : d.view m = some { data := own, parent := r, children := c :: rest })
    (node : d.view c = some n) (other : p ≠ m) (apart : ¬d.view.Above c p) :
    ∃ d', append p c d = .ok () d' ∧ d'.Sound ∧
      d'.view p = some { data, parent := q, children := kids ++ [c] } ∧
      d'.view m = some { data := own, parent := r, children := rest } ∧
      d'.view c = some { n with parent := some p } ∧
      ∀ x, x ≠ p → x ≠ m → x ≠ c → d'.view x = d.view x := by
  obtain ⟨k, child, parent⟩ := h.forest.child holder (by simp : c ∈ c :: rest)
  rw [node] at child
  cases child
  have solid : n.data ≠ .fragment := by
    intro fragment
    rw [h.forest.fragment_parent node fragment] at parent
    cases parent
  have pc : p ≠ c := by
    rintro rfl
    exact apart .self
  have mc : m ≠ c := by
    rintro rfl
    exact (h.forest.rooted node).not_above_parent node parent .self
  have left : (c :: rest).filter (· != c) = rest := by
    rw [← (h.forest.children_nodup holder).erase_eq_filter, List.erase_cons_head]
  obtain ⟨d₁, detached, view₁⟩ := detach_child node parent holder
  have host₁ : d₁.view p = some { data, parent := q, children := kids } := by
    rw [view₁, alter_of_ne _ _ pc, alter_of_ne _ _ other, host]
  have holder₁ : d₁.view m = some { data := own, parent := r, children := rest } := by
    rw [view₁, alter_of_ne _ _ mc, alter_self _ holder, left]
  have node₁ : d₁.view c = some { n with parent := none } := by
    rw [view₁, alter_self _ ((alter_of_ne _ _ mc.symm).trans node)]
  obtain ⟨d₂, take, view₂⟩ := takeFor_solid host container node solid (h.forest.rooted host) apart
    detached node₁
  have host₂ : d₂.view p = some { data, parent := q, children := kids } := by
    rw [view₂, adopt_apply host₁]
    simp [pc]
  have run : append p c d = .ok () (d₂.modify p fun n => { n with children := n.children ++ [c] }) := by
    unfold append
    rw [bind_ok take]
    exact modifyNode_ok _ host₂
  have sound := h.append (p := p) (c := c) fun _ entangled => apart entangled.2
  rw [after_ok run] at sound
  refine ⟨_, run, sound, ?_, ?_, ?_, fun x hp hm hc => ?_⟩
  · rw [view_modify, alter_self _ host₂]
  · rw [view_modify, alter_of_ne _ _ other.symm, view₂, adopt_apply holder₁]
    simp [mc]
  · rw [view_modify, alter_of_ne _ _ pc.symm, view₂, adopt_apply node₁]
    simp
  · rw [view_modify, alter_of_ne _ _ hp, view₂, adopt, view₁, alter_of_ne _ _ hc,
      alter_of_ne _ _ hm]
    simp [hc]

/-- All children are taken out and kept. -/
theorem clear_ok (h : d.Sound) {kids : List NodeId}
    (host : d.view p = some { data, parent := q, children := kids }) :
    ∃ d', clear p d = .ok () d' ∧ d'.Sound ∧
      d'.view p = some { data, parent := q, children := [] } ∧
      (∀ x ∈ kids, ∀ n, d.view x = some n → d'.view x = some { n with parent := none }) ∧
      ∀ x, x ≠ p → x ∉ kids → d'.view x = d.view x := by
  suffices loop : ∃ d', (do for c in kids do remove p c : Edit Unit) d = .ok () d' ∧ d'.Sound ∧
      d'.view p = some { data, parent := q, children := [] } ∧
      (∀ x ∈ kids, ∀ n, d.view x = some n → d'.view x = some { n with parent := none }) ∧
      ∀ x, x ≠ p → x ∉ kids → d'.view x = d.view x by
    obtain ⟨d', run, rest⟩ := loop
    refine ⟨d', ?_, rest⟩
    unfold clear
    rw [bind_ok (ask_ok (children_eq_ok host))]
    exact run
  induction kids generalizing d with
  | nil => exact ⟨d, loop_nil _ d, h, host, by simp, fun _ _ _ => rfl⟩
  | cons c kids ih =>
      obtain ⟨n, node, parent⟩ := h.forest.child host (by simp : c ∈ c :: kids)
      have first : d.view p = some { data, parent := q, children := [] ++ c :: kids } := host
      obtain ⟨d₁, removed, sound₁, host₁, node₁, frame₁⟩ := remove_child_ok h first node
      obtain ⟨out, -⟩ := List.nodup_cons.1 (h.forest.children_nodup host)
      have apart : c ≠ p := by
        rintro rfl
        exact (h.forest.rooted node).not_above_parent node parent .self
      obtain ⟨d', run, sound, host', roots, frame⟩ := ih sound₁ host₁
      refine ⟨d', loop_cons removed run, sound, host', fun x mem k there => ?_, fun x hp mem => ?_⟩
      · by_cases same : x = c
        · rw [same, node] at there
          cases there
          rw [same, frame c apart out, node₁]
        · have inside : x ∈ kids := by simpa [same] using mem
          have below : x ≠ p := by
            rintro rfl
            obtain ⟨l, self, up⟩ := h.forest.child host mem
            exact (h.forest.rooted self).not_above_parent self up .self
          exact roots x inside k ((frame₁ x below same).trans there)
      · rw [List.mem_cons, not_or] at mem
        rw [frame x hp mem.2, frame₁ x hp mem.1]

/-- All children of one node come behind those of another that is not below them. -/
theorem moveChildren_ok (h : d.Sound) {m : NodeId} {r : Option NodeId} {own : NodeData}
    {kids moved : List NodeId}
    (host : d.view p = some { data, parent := q, children := kids })
    (container : data.isContainer = true)
    (holder : d.view m = some { data := own, parent := r, children := moved }) (other : p ≠ m)
    (apart : ∀ c ∈ moved, ¬d.view.Above c p) :
    ∃ d', moveChildren m p d = .ok () d' ∧ d'.Sound ∧
      d'.view p = some { data, parent := q, children := kids ++ moved } ∧
      d'.view m = some { data := own, parent := r, children := [] } ∧
      (∀ x ∈ moved, ∀ n, d.view x = some n → d'.view x = some { n with parent := some p }) ∧
      ∀ x, x ≠ p → x ≠ m → x ∉ moved → d'.view x = d.view x := by
  suffices loop : ∃ d', (do for c in moved do append p c : Edit Unit) d = .ok () d' ∧ d'.Sound ∧
      d'.view p = some { data, parent := q, children := kids ++ moved } ∧
      d'.view m = some { data := own, parent := r, children := [] } ∧
      (∀ x ∈ moved, ∀ n, d.view x = some n → d'.view x = some { n with parent := some p }) ∧
      ∀ x, x ≠ p → x ≠ m → x ∉ moved → d'.view x = d.view x by
    obtain ⟨d', run, rest⟩ := loop
    refine ⟨d', ?_, rest⟩
    unfold moveChildren
    rw [bind_ok (ask_ok (children_eq_ok holder))]
    exact run
  induction moved generalizing d kids with
  | nil => exact ⟨d, loop_nil _ d, h, by simpa using host, holder, by simp, fun _ _ _ _ => rfl⟩
  | cons c moved ih =>
      obtain ⟨n, node, parent⟩ := h.forest.child holder (by simp : c ∈ c :: moved)
      obtain ⟨out, -⟩ := List.nodup_cons.1 (h.forest.children_nodup holder)
      have pc : p ≠ c := by
        intro same
        exact apart c (by simp) (same ▸ .self)
      have mc : m ≠ c := by
        intro same
        subst same
        exact (h.forest.rooted node).not_above_parent node parent .self
      obtain ⟨d₁, appended, sound₁, host₁, holder₁, node₁, frame₁⟩ :=
        append_child_ok h host container holder node other (apart c (by simp))
      have apart₁ : ∀ x ∈ moved, ¬d₁.view.Above x p := by
        intro x mem above
        refine apart x (by simp [mem]) (above.of_chain (h.forest.rooted host) ?_)
        intro y k up there
        -- the node that was moved is not above `p`, and no other has got a new parent
        have yc : y ≠ c := by
          intro same
          exact apart c (by simp) (same ▸ up)
        by_cases yp : y = p
        · rw [yp, host] at there
          cases there
          exact ⟨_, (congrArg d₁.view yp).trans host₁, rfl⟩
        · by_cases ym : y = m
          · rw [ym, holder] at there
            cases there
            exact ⟨_, (congrArg d₁.view ym).trans holder₁, rfl⟩
          · exact ⟨k, (frame₁ y yp ym yc).trans there, rfl⟩
      obtain ⟨d', run, sound, host', holder', kept, frame⟩ := ih sound₁ host₁ holder₁ apart₁
      refine ⟨d', loop_cons appended run, sound, by simpa using host', holder',
        fun x mem k there => ?_, fun x xp xm mem => ?_⟩
      · by_cases same : x = c
        · rw [same, node] at there
          cases there
          rw [same, frame c pc.symm mc.symm out, node₁]
        · have inside : x ∈ moved := by simpa [same] using mem
          have xp : x ≠ p := by
            intro same
            exact apart x mem (same ▸ .self)
          have xm : x ≠ m := by
            intro same
            subst same
            obtain ⟨l, self, up⟩ := h.forest.child holder mem
            exact (h.forest.rooted self).not_above_parent self up .self
          exact kept x inside k ((frame₁ x xp xm same).trans there)
      · rw [List.mem_cons, not_or] at mem
        rw [frame x xp xm mem.2, frame₁ x xp xm mem.1]

/-! ## Giving trees up -/

/-- A tree that stands alone is given up. -/
theorem release_root_ok (h : d.Sound) {t : NodeTree NodeId} (stands : d.view.Stands none t) :
    ∃ d', release t.label d = .ok () d' ∧ d'.Sound ∧
      ∀ x, x ∉ t.labels → d'.view x = d.view x := by
  have run : release t.label d = .ok () (d.vacateAll [t.label]) := by
    unfold release
    rw [bind_ok (detach_root stands.top rfl)]
    rfl
  have sound := keeps_release t.label d h
  rw [after_ok run] at sound
  refine ⟨_, run, sound, fun x out => ?_⟩
  refine vacateAll_frame (· ∈ t.labels) d [t.label] (by simp [label_mem_labels]) ?_ out
  intro y n mem node c listed
  obtain ⟨q, s, inside, rfl⟩ := exists_within none t y mem
  rw [(stands.within inside).top] at node
  cases node
  cases s with
  | node id own children =>
      obtain ⟨u, sub, rfl⟩ := List.mem_map.1 listed
      exact (inside.child sub).label_mem

/-- A tree below another node is given up. -/
theorem release_child_ok (h : d.Sound) {t : NodeTree NodeId} {rest : List NodeId}
    (host : d.view p = some { data, parent := q, children := t.label :: rest })
    (stands : d.view.Stands (some p) t) :
    ∃ d', release t.label d = .ok () d' ∧ d'.Sound ∧
      d'.view p = some { data, parent := q, children := rest } ∧
      ∀ x, x ≠ p → x ∉ t.labels → d'.view x = d.view x := by
  have below : p ∉ t.labels := by
    have all : d.view.StandAll (some p) [t] := ⟨stands, trivial⟩
    simpa using h.forest.not_mem_labelsAll all
  have apart : p ≠ t.label := fun same => below (same ▸ label_mem_labels t)
  have left : (t.label :: rest).filter (· != t.label) = rest := by
    rw [← (h.forest.children_nodup host).erase_eq_filter, List.erase_cons_head]
  obtain ⟨d₁, detached, view⟩ := detach_child stands.top rfl host
  have host₁ : d₁.view p = some { data, parent := q, children := rest } := by
    rw [view, alter_of_ne _ _ apart, alter_self _ host, left]
  have kept : ∀ x, x ≠ p → x ≠ t.label → d₁.view x = d.view x := by
    intro x xp xt
    rw [view, alter_of_ne _ _ xt, alter_of_ne _ _ xp]
  have sound₁ : d₁.Sound := by
    have accounted := lasting_accounted.detach t.label d h.accounted
    rw [after_ok detached] at accounted
    rw [h.forest.linked.prune_child stands.top rfl] at view
    exact ⟨accounted, view ▸ h.forest.prune [t.label]⟩
  have top : d₁.view t.label = some {
      data := t.data, parent := none, children := t.children.map NodeTree.label } := by
    rw [view, alter_self _ ((alter_of_ne _ _ apart.symm).trans stands.top)]
  have stands₁ : d₁.view.Stands none t := by
    cases t with
    | node id own children =>
        refine ⟨top, standAll_congr (some id) children (fun x mem => kept x ?_ ?_) stands.2⟩
        · intro same
          exact below (by simp [← same, mem])
        · intro same
          have inside : id ∈ labelsAll children := by
            rwa [same] at mem
          exact h.forest.not_mem_labelsAll stands.2 inside
  obtain ⟨d', run, sound, frame⟩ := release_root_ok sound₁ stands₁
  rw [release, bind_ok (detach_root top rfl)] at run
  refine ⟨d', ?_, sound, (frame p below).trans host₁, fun x xp out => ?_⟩
  · rw [release, bind_ok detached]
    exact run
  · rw [frame x out, kept x xp fun same => out (same ▸ label_mem_labels t)]

/-- All trees below a node are given up. -/
theorem discardChildren_ok (h : d.Sound) {ts : List (NodeTree NodeId)}
    (host : d.view p = some { data, parent := q, children := ts.map NodeTree.label })
    (stands : d.view.StandAll (some p) ts) :
    ∃ d', discardChildren p d = .ok () d' ∧ d'.Sound ∧
      d'.view p = some { data, parent := q, children := [] } ∧
      ∀ x, x ≠ p → x ∉ labelsAll ts → d'.view x = d.view x := by
  suffices loop : ∃ d', (do for c in ts.map NodeTree.label do release c : Edit Unit) d = .ok () d' ∧
      d'.Sound ∧ d'.view p = some { data, parent := q, children := [] } ∧
      ∀ x, x ≠ p → x ∉ labelsAll ts → d'.view x = d.view x by
    obtain ⟨d', run, rest⟩ := loop
    refine ⟨d', ?_, rest⟩
    unfold discardChildren
    rw [bind_ok (ask_ok (children_eq_ok host))]
    exact run
  induction ts generalizing d with
  | nil => exact ⟨d, loop_nil _ d, h, host, fun _ _ _ => rfl⟩
  | cons t ts ih =>
      have nodup := h.forest.nodup_labelsAll _ p stands (h.forest.children_nodup host)
      have out := h.forest.not_mem_labelsAll stands
      rw [labelsAll_cons, List.nodup_append] at nodup
      obtain ⟨d₁, released, sound₁, host₁, frame₁⟩ := release_child_ok h host stands.1
      have others : d₁.view.StandAll (some p) ts := by
        refine standAll_congr _ ts (fun x mem => frame₁ x ?_ ?_) stands.2
        · intro same
          exact out (by simp [← same, mem])
        · intro inside
          exact nodup.2.2 x inside x mem rfl
      obtain ⟨d', run, sound, host', frame⟩ := ih sound₁ host₁ others
      refine ⟨d', loop_cons released run, sound, host', fun x xp mem => ?_⟩
      rw [labelsAll_cons, List.mem_append, not_or] at mem
      rw [frame x xp mem.2, frame₁ x xp mem.1]

end Document

end Stencil
