import Stencil.Proofs.Render.Casting

/-! # Clear molds

A tree is exact when each of its hosts has at most one reference for its content, and all the
attributes that are written. In the mold of a tidy and exact tree every place has a number of
its own, content that changes is empty, and at most one written attribute, the marker, is missing.
-/

namespace Stencil

open Markup NodeTree Document Edit View

/-! ## Exact trees -/

/-- A host is exact with its slot: at most one reference changes the content, and the attributes
that are written are there. -/
structure Exact {ι : Type} (host : NodeTree ι) (slot : List (Reference CompiledTemplate)) : Prop where
  single : (slot.filter Reference.isContent).length ≤ 1
  present : ∀ name ∈ slot.filterMap Reference.attr?, name ∈ host.data.attributes.map Prod.fst

/-- The hosts of a tree are exact with the slots that they are given. -/
def Markup.NodeTree.Exact {ι : Type} (t : NodeTree ι)
    (slots : List (List (Reference CompiledTemplate))) : Prop :=
  ∀ pair ∈ (hostNodes t).zip slots, Stencil.Exact pair.1 pair.2

theorem exact_shape {ι : Type} {t : NodeTree ι} {slots : List (List (Reference CompiledTemplate))} :
    t.shape.Exact slots ↔ t.Exact slots := by
  have same : ∀ s : NodeTree ι, s.shape.data = s.data := fun s => data_map _ s
  have pairs : ∀ (s : NodeTree ι) slot, Stencil.Exact s.shape slot ↔ Stencil.Exact s slot := by
    intro s slot
    exact ⟨fun h => ⟨h.single, same s ▸ h.present⟩, fun h => ⟨h.single, (same s).symm ▸ h.present⟩⟩
  unfold NodeTree.Exact
  rw [hostNodes_shape, List.zip_map_left]
  simp only [List.forall_mem_map, Prod.map, id_eq, pairs]

/-! ## Hosts of molds -/

theorem unmarked_unmarked (data : NodeData) : data.unmarked.unmarked = data.unmarked := by
  cases data with
  | element tag own => simp [NodeData.unmarked]
  | text | comment | fragment | doctype => rfl

/-- Taking the marker takes no other attribute. -/
theorem mem_unmarked {data : NodeData} {name : String} (mem : name ∈ data.attributes.map Prod.fst) :
    name = Marker.host ∨ name ∈ data.unmarked.attributes.map Prod.fst := by
  by_cases marker : name = Marker.host
  · exact .inl marker
  · refine .inr ?_
    cases data with
    | element tag own =>
        obtain ⟨entry, listed, rfl⟩ := List.mem_map.1 mem
        exact List.mem_map_of_mem (List.mem_filter.2 ⟨listed, by simpa using marker⟩)
    | text | comment | fragment | doctype => exact mem

/-- The subtrees of a tree without markers are those of the tree, up to markers. -/
theorem Markup.NodeTree.Within.of_unmark {ι : Type} [DecidableEq ι] {hosts : List ι} {p q : Option ι}
    {t s : NodeTree ι} (h : Within p (t.unmark hosts) q s) :
    ∃ s', Within p t q s' ∧ s.label = s'.label ∧ (s.data = s'.data ∨ s.data = s'.data.unmarked) ∧
      (s'.children = [] → s.children = []) := by
  induction hosts generalizing t with
  | nil => exact ⟨s, h, rfl, .inl rfl, id⟩
  | cons x hosts ih =>
      obtain ⟨s₁, inside, label, data, children⟩ := ih h
      obtain ⟨⟨id, own, kids⟩, within, rfl | rfl⟩ := inside.of_revise_redata
      · exact ⟨_, within, label, data, children⟩
      · by_cases same : id = x
        · rw [revise, if_pos same] at label data children
          refine ⟨_, within, label, .inr ?_, children⟩
          rcases data with data | data
          · exact data
          · exact data.trans (unmarked_unmarked own)
        · rw [revise, if_neg same] at label data children
          exact ⟨_, within, label, data, fun empty => children (by cases empty; rfl)⟩

theorem Binding.target_eq_content {b : Binding} {host x : NodeId} (h : b.target host = .content x) :
    b.attr = none ∧ host = x := by
  obtain ⟨kind, key, attr, block⟩ := b
  cases attr with
  | none => exact ⟨rfl, Target.content.inj h⟩
  | some name => cases h

theorem Binding.target_eq_attr {b : Binding} {host x : NodeId} {name : String}
    (h : b.target host = .attr x name) : b.attr = some name ∧ host = x := by
  obtain ⟨kind, key, attr, block⟩ := b
  cases attr with
  | none => cases h
  | some own =>
      obtain ⟨rfl, rfl⟩ := Target.attr.inj h
      exact ⟨rfl, rfl⟩

/-- A host has one slot. -/
theorem slot_unique {C : NodeTree NodeId} {slots : List (List (Reference CompiledTemplate))}
    (nodup : C.labels.Nodup) {h k : NodeTree NodeId} {slot other : List (Reference CompiledTemplate)}
    (mem : (h, slot) ∈ (hostNodes C).zip slots) (mem' : (k, other) ∈ (hostNodes C).zip slots)
    (same : h.label = k.label) : slot = other := by
  have hosts : ((hostNodes C).map label).Nodup :=
    nodup.sublist (((hostNodes_sublist C).map label).trans (hostTrees_sublist C))
  have pairs : (((hostNodes C).zip slots).map fun pair => pair.1.label).Nodup := by
    have fewer : (((hostNodes C).zip slots).map Prod.fst).Sublist (hostNodes C) := by
      rw [List.zip_eq_zip_take_min, List.map_fst_zip (by simp)]
      exact List.take_sublist ..
    have labels := hosts.sublist (fewer.map label)
    rwa [List.map_map] at labels
  exact congrArg Prod.snd (List.inj_on_of_nodup_map pairs mem mem' same)

section

variable {T : NodeTree NodeId} {slots : List (List (Reference CompiledTemplate))}

/-- A wired binding is one of a host. -/
theorem Instance.exists_host_of_binding {b : BoundBinding}
    (mem : b ∈ (Instance.wired T slots).bindings) :
    ∃ h slot, (h, slot) ∈ (hostNodes T).zip slots ∧ b.target = b.binding.target h.label ∧
      .binding b.binding ∈ slot := by
  obtain ⟨⟨x, r⟩, listed, found⟩ := List.mem_filterMap.1 (BindingTable.mem_ofList.1 mem)
  obtain ⟨site, target, -⟩ := Site.binding?_eq_some found
  rw [site] at listed
  obtain ⟨h, slot, paired, label, inside⟩ := exists_host_of_mem_sitesOf listed
  exact ⟨h, slot, paired, by rw [target, label], inside⟩

/-- A wired region is one of a host. -/
theorem Instance.exists_host_of_region {r : Region} (mem : r ∈ (Instance.wired T slots).regions) :
    ∃ h slot t, (h, slot) ∈ (hostNodes T).zip slots ∧ h.label = r.container ∧
      .template t ∈ slot := by
  obtain ⟨site, listed, found⟩ := List.mem_filterMap.1 mem
  obtain ⟨t, rfl⟩ := Site.region?_eq_some found
  obtain ⟨h, slot, paired, label, inside⟩ := exists_host_of_mem_sitesOf listed
  exact ⟨h, slot, t, paired, label, inside⟩

/-- Two references of one host that change its content are one. -/
theorem Markup.NodeTree.Exact.content_unique (exact : T.Exact slots) (nodup : T.labels.Nodup)
    {h k : NodeTree NodeId} {slot other : List (Reference CompiledTemplate)}
    (paired : (h, slot) ∈ (hostNodes T).zip slots) (paired' : (k, other) ∈ (hostNodes T).zip slots)
    (same : h.label = k.label) {r r' : Reference CompiledTemplate} (mem : r ∈ slot)
    (mem' : r' ∈ other) (content : r.isContent = true) (content' : r'.isContent = true) :
    r = r' := by
  obtain rfl := slot_unique nodup paired paired' same
  have single := (exact _ paired).single
  have first := List.mem_filter.2 ⟨mem, content⟩
  have second := List.mem_filter.2 ⟨mem', content'⟩
  generalize slot.filter Reference.isContent = contents at single first second
  rcases contents with _ | ⟨c, _ | ⟨c', rest⟩⟩
  · cases first
  · rw [List.mem_singleton.1 first, List.mem_singleton.1 second]
  · simp at single

end

namespace Mold

/-- A mold is clear: numbers are distinct, the places where content changes have none, and one
reference changes it, and all attributes that are written, but for one name, are there. -/
structure Clear (m : Mold) : Prop where
  once : ∀ x, m.sketch.labels.count (some x) ≤ 1
  empty : ∀ {x q t}, m.live.Fills x → Within none m.sketch q t → t.label = some x → t.children = []
  present : ∀ b ∈ m.live.bindings, ∀ {x name q t}, b.target = .attr x name →
    Within none m.sketch q t → t.label = some x →
      name = Marker.host ∨ name ∈ t.data.attributes.map Prod.fst
  single : ∀ b ∈ m.live.bindings, ∀ {x}, b.target = .content x →
    (∀ c ∈ m.live.bindings, c.target = .content x → c.binding = b.binding) ∧
      ∀ r ∈ m.live.regions, r.container ≠ x

/-- A place is a host of the numbered tree, and the sketch shows it as it is. -/
theorem exists_host_of_within {ι : Type} {keep : Bool} {P : NodeTree ι}
    {slots : List (List (Reference CompiledTemplate))} {parts : List Mold} {x : NodeId}
    {q : Option (Option NodeId)} {t : Sketch}
    (inside : Within none (Mold.of keep P slots parts).sketch q t) (label : t.label = some x)
    {h : NodeTree NodeId} (host : h ∈ hostNodes (P.number 0)) (same : h.label = x) :
    (t.data = h.data ∨ t.data = h.data.unmarked) ∧ (h.children = [] → t.children = []) := by
  obtain ⟨q', s, within, rfl⟩ := inside.of_map none
  rw [label_map] at label
  have number : s.label = x := by
    split at label
    · exact Option.some.inj label
    · cases label
  have bare : ∃ s', Within none (P.number 0) q' s' ∧ s.label = s'.label ∧
      (s.data = s'.data ∨ s.data = s'.data.unmarked) ∧ (s'.children = [] → s.children = []) := by
    cases keep with
    | true => exact ⟨s, within, rfl, .inl rfl, id⟩
    | false => exact Within.of_unmark within
  obtain ⟨s', within', label', data, children⟩ := bare
  obtain ⟨⟨r, there⟩, -⟩ := within_hostTrees none _ h (hostNodes_subset _ host)
  obtain ⟨-, rfl⟩ := within_unique _ none (nodup_labels_number 0 P) within' there
    (label'.symm.trans (number.trans same.symm))
  rw [data_map, children_map]
  exact ⟨data, fun empty => List.map_eq_nil_iff.2 (children empty)⟩

section

variable {ι : Type} {keep : Bool} {P : NodeTree ι} {slots : List (List (Reference CompiledTemplate))}
  {parts : List Mold}

/-- Every number is at one place of the sketch at most. -/
theorem count_labels_le_one (x : NodeId) :
    (Mold.of keep P slots parts).sketch.labels.count (some x) ≤ 1 := by
  have labels : (Mold.of keep P slots parts).sketch.labels = (P.number 0).labels.map fun y =>
      if y ∈ (Instance.wired (P.number 0) slots).places then some y else none := by
    rw [sketch, labels_map]
    exact congrArg _ (labels_bare keep _)
  rw [labels, List.count_eq_countP, List.countP_map]
  refine Nat.le_trans (List.countP_mono_left fun y _ found => ?_)
    (List.nodup_iff_count_le_one.1 (nodup_labels_number 0 P) x)
  rw [Function.comp_apply] at found
  split at found
  · simpa using found
  · cases found

/-- Content that changes is empty in the mold of a tidy tree. -/
theorem childless_of (tidy : (P.number 0).Tidy slots) {x : NodeId} {q : Option (Option NodeId)}
    {t : Sketch} (fills : (Mold.of keep P slots parts).live.Fills x)
    (inside : Within none (Mold.of keep P slots parts).sketch q t) (label : t.label = some x) :
    t.children = [] := by
  rcases fills with ⟨b, mem, target⟩ | ⟨r, mem, rfl⟩
  · obtain ⟨h, slot, paired, own, listed⟩ := Instance.exists_host_of_binding mem
    obtain ⟨content, same⟩ := Binding.target_eq_content (own.symm.trans target)
    refine (exists_host_of_within inside label (List.of_mem_zip paired).1 same).2 ?_
    exact tidy _ paired _ listed (by simp [Reference.isContent, content])
  · obtain ⟨h, slot, t', paired, same, listed⟩ := Instance.exists_host_of_region mem
    refine (exists_host_of_within inside label (List.of_mem_zip paired).1 same).2 ?_
    exact tidy _ paired _ listed rfl

/-- Attributes that are written are there in the mold of an exact tree, the marker apart. -/
theorem present_of (exact : (P.number 0).Exact slots) {b : BoundBinding}
    (mem : b ∈ (Mold.of keep P slots parts).live.bindings) {x : NodeId} {name : String}
    {q : Option (Option NodeId)} {t : Sketch} (target : b.target = .attr x name)
    (inside : Within none (Mold.of keep P slots parts).sketch q t) (label : t.label = some x) :
    name = Marker.host ∨ name ∈ t.data.attributes.map Prod.fst := by
  obtain ⟨h, slot, paired, own, listed⟩ := Instance.exists_host_of_binding mem
  obtain ⟨attr, same⟩ := Binding.target_eq_attr (own.symm.trans target)
  have there : name ∈ h.data.attributes.map Prod.fst :=
    (exact _ paired).present name (List.mem_filterMap.2 ⟨_, listed, attr⟩)
  rcases (exists_host_of_within inside label (List.of_mem_zip paired).1 same).1 with data | data
  · exact .inr (data ▸ there)
  · rw [data]
    exact mem_unmarked there

/-- The mold of a tidy and exact tree is clear. -/
theorem clear_of (tidy : P.Tidy slots) (exact : P.Exact slots) (keep : Bool) (parts : List Mold) :
    (Mold.of keep P slots parts).Clear := by
  have nodup := nodup_labels_number 0 P
  have tidyN : (P.number 0).Tidy slots := by
    rwa [← tidy_shape, shape_number, tidy_shape]
  have exactN : (P.number 0).Exact slots := by
    rwa [← exact_shape, shape_number, exact_shape]
  refine ⟨count_labels_le_one, childless_of tidyN, fun b mem => present_of exactN mem, ?_⟩
  intro b mem x target
  obtain ⟨h, slot, paired, own, listed⟩ := Instance.exists_host_of_binding mem
  obtain ⟨content, same⟩ := Binding.target_eq_content (own.symm.trans target)
  refine ⟨fun c mem' target' => ?_, fun r mem' place => ?_⟩
  · obtain ⟨k, other, paired', own', listed'⟩ := Instance.exists_host_of_binding mem'
    obtain ⟨content', same'⟩ := Binding.target_eq_content (own'.symm.trans target')
    have refs := exactN.content_unique nodup paired paired' (same.trans same'.symm) listed listed'
      (by simp [Reference.isContent, content]) (by simp [Reference.isContent, content'])
    exact (Reference.binding.inj refs).symm
  · obtain ⟨k, other, t, paired', same', listed'⟩ := Instance.exists_host_of_region mem'
    have refs := exactN.content_unique nodup paired paired' (same.trans (same'.trans place).symm)
      listed listed' (by simp [Reference.isContent, content]) rfl
    cases refs

end

end Mold

end Stencil
