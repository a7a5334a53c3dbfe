import Mathlib.Data.List.Basic
import Stencil.Proofs.Document.Operation
import Stencil.Proofs.Document.Surgery

/-! # Copies and their return

A copy of a subtree takes numbers that no node has, whatever slots are free. Giving up a
subtree empties exactly its slots and puts each of them on the free list once, so that
giving up a copy brings back the document from before it was made.
-/

namespace Stencil

open Markup NodeTree

namespace View

/-- Where links agree, what is below the top of a standing tree belongs to the tree. -/
theorem Linked.mem_labels_of_above {v : View} (f : Linked v) {p : Option NodeId}
    {t : NodeTree NodeId} (stands : v.Stands p t) {x : NodeId} (above : Above v t.label x) :
    x ∈ t.labels := by
  induction above with
  | self => exact label_mem_labels t
  | @step x q n node parent _ ih =>
      obtain ⟨r, s, inside, same⟩ := exists_within p t q ih
      obtain ⟨m, host, listed⟩ := f.parent node parent
      rw [← same, (stands.within inside).top] at host
      cases host
      obtain ⟨c, mem, rfl⟩ := List.mem_map.1 listed
      cases s with
      | node id data children => exact (inside.child mem).label_mem

/-- Taking a node out leaves alone all but the node and its parent. -/
theorem Linked.prune_of_ne {v : View} (f : Linked v) {c x : NodeId} {n : Node}
    (node : v c = some n) (other : x ≠ c) (apart : n.parent ≠ some x) :
    View.prune [c] v x = v x := by
  cases there : v x with
  | none => simp [View.prune, there]
  | some m =>
      have out : c ∉ m.children := fun mem => by
        obtain ⟨k, child, parent⟩ := f.child there mem
        rw [node] at child
        cases child
        exact apart parent
      rw [prune_apply there, filter_of_not_mem out, if_neg (by simpa using other)]

/-- What stands below a parent stands alone when its top has been taken out. -/
theorem Linked.stands_prune {v : View} (f : Linked v) {t : NodeTree NodeId} {n : Node}
    (node : v t.label = some n) (stands : v.Stands n.parent t) :
    (View.prune [t.label] v).Stands none t := by
  obtain ⟨id, data, children⟩ := t
  have below := f.not_mem_labelsAll stands.2
  refine ⟨?_, standAll_congr _ children (fun x mem => f.prune_of_ne node ?_ ?_) stands.2⟩
  · have kept : (children.map NodeTree.label).filter (· ∉ [id]) = children.map NodeTree.label :=
      filter_of_not_mem fun mem => below ((map_label_sublist children).subset mem)
    have top : View.prune [id] v id = _ := prune_apply stands.1
    rw [if_pos (List.mem_singleton_self id), kept] at top
    exact top
  · rintro rfl
    exact below mem
  · intro parent
    exact (f.rooted node).not_above_parent node parent (stands.above (List.mem_cons_of_mem _ mem))

theorem Linked.mem_labels_iff {v : View} (f : Linked v) {p : Option NodeId}
    {t : NodeTree NodeId} (stands : v.Stands p t) (x : NodeId) :
    x ∈ t.labels ↔ Above v t.label x :=
  ⟨stands.above, f.mem_labels_of_above stands⟩

end View

namespace Document

open Edit View

variable {d d' : Document}

/-! ## Counting nodes -/

theorem Accounted.length_free_le (h : d.Accounted) : d.free.length ≤ d.slots.size := by
  have below : d.free ⊆ List.range d.slots.size := fun i mem =>
    List.mem_range.2 (Array.getElem?_eq_some_iff.1 ((h.mem_free_iff i).1 mem)).1
  simpa using h.nodup.length_le_of_subset below

/-- The numbers of the slots that hold a node. -/
def inUse (d : Document) : List Nat :=
  (List.range d.slots.size).filter fun i => (d.view ⟨i⟩).isSome

theorem mem_inUse (d : Document) (i : Nat) : i ∈ d.inUse ↔ d.view ⟨i⟩ ≠ none := by
  rw [inUse, List.mem_filter, List.mem_range, Option.isSome_iff_ne_none, and_iff_right_iff_imp]
  intro live
  obtain ⟨n, node⟩ := Option.ne_none_iff_exists'.1 live
  exact index_lt_of_view node

/-- Where the slots are accounted for, the size is the number of nodes. -/
theorem Accounted.size_eq (h : d.Accounted) : d.size = d.inUse.length := by
  have empty : d.free.Perm
      ((List.range d.slots.size).filter fun i => !(d.view ⟨i⟩).isSome) := by
    refine (List.perm_ext_iff_of_nodup h.nodup (List.nodup_range.filter _)).2 fun i => ?_
    rw [h.mem_free_iff, List.mem_filter, List.mem_range]
    constructor
    · intro slot
      have dead : d.view ⟨i⟩ = none := view_of_slot slot
      exact ⟨(Array.getElem?_eq_some_iff.1 slot).1, by simp [dead]⟩
    · rintro ⟨bound, dead⟩
      have slot := Array.getElem?_eq_getElem bound
      cases held : d.slots[i] with
      | none => rw [slot, held]
      | some n =>
          have live : d.view ⟨i⟩ = some n := view_of_slot (slot.trans (congrArg some held))
          simp [live] at dead
  have parts := List.length_eq_length_filter_add (l := List.range d.slots.size)
    fun i => (d.view ⟨i⟩).isSome
  rw [List.length_range, ← empty.length_eq] at parts
  unfold size inUse
  omega

/-- Documents with nodes of the same numbers have the same size. -/
theorem Accounted.size_congr (h : d.Accounted) (h' : d'.Accounted)
    (same : ∀ x, d'.view x = none ↔ d.view x = none) : d'.size = d.size := by
  rw [h.size_eq, h'.size_eq]
  refine List.Perm.length_eq ((List.perm_ext_iff_of_nodup (List.nodup_range.filter _)
    (List.nodup_range.filter _)).2 fun i => ?_)
  have first := mem_inUse d i
  have second := mem_inUse d' i
  unfold inUse at first second
  rw [first, second, ne_eq, same]

/-! ## Emptied slots -/

/-- The slots of some nodes have been emptied, each of them once, and nothing else. -/
structure Emptied (d d' : Document) (gone : List NodeId) : Prop where
  dead : ∀ x ∈ gone, d'.view x = none
  kept : ∀ x, x ∉ gone → d'.view x = d.view x
  free : ∃ order : List NodeId, order.Perm gone ∧ d'.free = order.map NodeId.index ++ d.free
  slots : d'.slots.size = d.slots.size
  settings : d'.name = d.name ∧ d'.strict = d.strict

namespace Emptied

variable {d'' : Document} {gone more : List NodeId}

theorem nil (d : Document) : Emptied d d [] where
  dead _ mem := by cases mem
  kept _ _ := rfl
  free := ⟨[], .refl _, rfl⟩
  slots := rfl
  settings := ⟨rfl, rfl⟩

theorem trans (h : Emptied d d' gone) (k : Emptied d' d'' more) :
    Emptied d d'' (gone ++ more) where
  dead x mem := by
    by_cases later : x ∈ more
    · exact k.dead x later
    · rw [k.kept x later]
      exact h.dead x ((List.mem_append.1 mem).resolve_right later)
  kept x out := by
    rw [List.mem_append, not_or] at out
    rw [k.kept x out.2, h.kept x out.1]
  free := by
    obtain ⟨order, perm, free⟩ := h.free
    obtain ⟨order', perm', free'⟩ := k.free
    refine ⟨order' ++ order, (perm'.append perm).trans List.perm_append_comm, ?_⟩
    rw [free', free, List.map_append, List.append_assoc]
  slots := k.slots.trans h.slots
  settings := ⟨k.settings.1.trans h.settings.1, k.settings.2.trans h.settings.2⟩

theorem perm (h : Emptied d d' gone) (same : gone.Perm more) : Emptied d d' more where
  dead x mem := h.dead x (same.mem_iff.2 mem)
  kept x out := h.kept x fun mem => out (same.mem_iff.1 mem)
  free := by
    obtain ⟨order, perm, free⟩ := h.free
    exact ⟨order, perm.trans same, free⟩
  slots := h.slots
  settings := h.settings

/-- The size drops by the number of slots that were emptied. -/
theorem size (h : Emptied d d' gone) (accounted : d'.Accounted) :
    d'.size + gone.length = d.size := by
  obtain ⟨order, perm, free⟩ := h.free
  have room := accounted.length_free_le
  have grown : d'.free.length = gone.length + d.free.length := by
    rw [free, List.length_append, List.length_map, perm.length_eq]
  have slots := h.slots
  unfold Document.size
  omega

end Emptied

theorem emptied_vacate? {id : NodeId} {n : Node} (found : d.vacate? id = some (n, d')) :
    Emptied d d' [id] := by
  obtain ⟨-, view⟩ := view_vacate? found
  obtain ⟨m, -, same⟩ := Option.map_eq_some_iff.1 found
  simp only [Prod.mk.injEq] at same
  obtain ⟨-, rfl⟩ := same
  refine ⟨fun x mem => ?_, fun x out => ?_, ⟨[id], .refl _, rfl⟩, by simp, rfl, rfl⟩
  · rw [view, List.mem_singleton.1 mem, drop_self]
  · rw [view, drop_of_ne _ (by simpa using out)]

mutual

/-- A standing tree on top of the stack is emptied as a whole before what is below it. -/
theorem emptied_vacateAll : (t : NodeTree NodeId) → (p : Option NodeId) → (d : Document) →
    (stack : List NodeId) → d.view.Stands p t → t.labels.Nodup →
    ∃ d', d.vacateAll (t.label :: stack) = d'.vacateAll stack ∧ Emptied d d' t.labels
  | .node id data children, p, d, stack, stands, nodup => by
      obtain ⟨out, apart⟩ := List.nodup_cons.1 nodup
      obtain ⟨rest, found⟩ : ∃ rest, d.vacate? id = some (_, rest) :=
        ⟨_, Option.map_eq_some_iff.2 ⟨_, stands.1, rfl⟩⟩
      have first := emptied_vacate? found
      have below := standAll_congr (w := rest.view) _ children
        (fun x mem => first.kept x fun same => out (List.mem_singleton.1 same ▸ mem)) stands.2
      obtain ⟨d', run, others⟩ := emptied_vacateAll_list children _ rest stack below apart
      exact ⟨d', (vacateAll_cons found).trans run, first.trans others⟩

/-- The trees pushed for the children of a node are emptied, the last of them first. -/
theorem emptied_vacateAll_list : (ts : List (NodeTree NodeId)) → (p : Option NodeId) →
    (d : Document) → (stack : List NodeId) → d.view.StandAll p ts → (labelsAll ts).Nodup →
    ∃ d', d.vacateAll ((ts.map NodeTree.label).reverse ++ stack) = d'.vacateAll stack ∧
      Emptied d d' (labelsAll ts)
  | [], _, d, _, _, _ => ⟨d, rfl, .nil d⟩
  | t :: ts, p, d, stack, stands, nodup => by
      obtain ⟨own, rest, apart⟩ := List.nodup_append.1 nodup
      obtain ⟨d₁, run₁, others⟩ :=
        emptied_vacateAll_list ts p d (t.label :: stack) stands.2 rest
      have still : d₁.view.Stands p t := stands.1.congr fun x mem =>
        others.kept x fun later => apart x mem x later rfl
      obtain ⟨d₂, run₂, first⟩ := emptied_vacateAll t p d₁ stack still own
      refine ⟨d₂, ?_, (others.trans first).perm List.perm_append_comm⟩
      rw [List.map_cons, List.reverse_cons, List.append_assoc, List.singleton_append, run₁, run₂]

end

/-! ## Copying and releasing -/

/-- `copy` is the top of a copy of what stands below `id`: it has no parent, the shape is the
same, and the copy is made of nodes that were not there. Every other number is as before. -/
structure Copied (d d' : Document) (id copy : NodeId) : Prop where
  root : d'.parent copy = .ok none
  trees : ∃ t c, d.tree id = .ok t ∧ d'.tree copy = .ok c ∧ c.shape = t.shape ∧
    c.labels.Nodup ∧ (∀ x ∈ c.labels, d.view x = none ∧ d'.view x ≠ none) ∧
    ∀ x, x ∉ c.labels → d'.view x = d.view x
  kept : ∀ x n, d.view x = some n → d'.view x = some n

/-- A node and all nodes below it have been given up: their slots come before the free ones,
each of them once, and the children of the parent are without the node. Everything else is as
before. -/
structure Released (d d' : Document) (id : NodeId) : Prop where
  dead : ∀ x, d.view.Above id x → d'.view x = none
  host : ∀ p n m, d.view id = some n → n.parent = some p → d.view p = some m →
    d'.view p = some { m with children := m.children.erase id }
  kept : ∀ x n, d.view id = some n → ¬d.view.Above id x → n.parent ≠ some x →
    d'.view x = d.view x
  slots : ∃ order : List NodeId, order.Nodup ∧ (∀ x, x ∈ order ↔ d.view.Above id x) ∧
    d'.free = order.map NodeId.index ++ d.free ∧ d'.slots.size = d.slots.size ∧
    d'.size + order.length = d.size
  settings : d'.name = d.name ∧ d'.strict = d.strict

/-- Copying a standing tree. -/
theorem copied_of_planted {t c : NodeTree NodeId}
    (read : d.tree t.label = .ok t) (planted : Planted d d' none t c) :
    Copied d d' t.label c.label where
  root := parent_eq_ok planted.stands.top
  trees := ⟨t, c, read, tree_of_stands planted.stands planted.nodup, planted.shape, planted.nodup,
    fun x mem => ⟨planted.trades.fresh x mem (by simp), planted.stands.live mem⟩,
    fun x out => planted.trades.frame x (by simp) out⟩
  kept _ _ node := planted.trades.kept node (by simp)

/-- A node of any document with agreeing links is released. -/
theorem released_release (accounted : d.Accounted) (f : d.view.Linked) {id : NodeId} {n : Node}
    (node : d.view id = some n) : ∃ d', release id d = .ok () d' ∧ Released d d' id := by
  obtain ⟨t, -, rfl, stands⟩ := exists_tree_of_linked f node
  obtain ⟨d₁, detached, view⟩ := detach_ok f node
  have frame := keeps_detach (P := fun e => e.free = d.free ∧ e.slots.size = d.slots.size ∧
    (e.name = d.name ∧ e.strict = d.strict) ∧ e.Accounted)
    (fun id f h => ⟨h.1, by simpa [Document.modify] using h.2.1, h.2.2.1, h.2.2.2.modify id f⟩)
    t.label d ⟨rfl, rfl, ⟨rfl, rfl⟩, accounted⟩
  rw [after_ok detached] at frame
  obtain ⟨free, slots, settings, accounted₁⟩ := frame
  have alone := view ▸ f.stands_prune node stands
  obtain ⟨d', run, emptied⟩ :=
    emptied_vacateAll t none d₁ [] alone (f.nodup_labels t _ stands)
  rw [vacateAll] at run
  have accounted' : d'.Accounted := run ▸ accounted₁.vacateAll [t.label]
  have labels := f.mem_labels_iff stands
  obtain ⟨order, perm, free'⟩ := emptied.free
  refine ⟨d', ?_, ?_, ?_, ?_, ?_, ?_⟩
  · unfold release
    rw [bind_ok detached, change_run, run]
  · exact fun x above => emptied.dead x ((labels x).2 above)
  · intro p m k same parent host
    rw [node] at same
    cases same
    have apart := (f.rooted node).not_above_parent node parent
    have other : p ≠ t.label := fun same => apart (same ▸ .self)
    rw [emptied.kept p fun mem => apart ((labels p).1 mem), view, ← f.prune_child node parent,
      alter_of_ne _ _ other, alter_self _ host, (f.children_nodup host).erase_eq_filter]
  · intro x m same out other
    rw [node] at same
    cases same
    rw [emptied.kept x fun mem => out ((labels x).1 mem), view]
    exact f.prune_of_ne node (fun same => out (same ▸ .self)) other
  · refine ⟨order, perm.nodup_iff.2 (f.nodup_labels t _ stands), fun x => ?_, ?_, ?_, ?_⟩
    · rw [perm.mem_iff, labels x]
    · rw [free', free]
    · rw [emptied.slots, slots]
    · have drop := emptied.size accounted'
      rw [perm.length_eq, drop]
      unfold Document.size
      rw [free, slots]
  · exact ⟨emptied.settings.1.trans settings.1, emptied.settings.2.trans settings.2⟩

/-- Where links agree, a node is copied with everything below it, and it is given up with
everything below it. The copy is exact and the return of the slots complete, so that giving up
a fresh copy brings back all nodes and the size. -/
theorem copyTree_release (accounted : d.Accounted) (f : d.view.Linked) {id : NodeId} {n : Node}
    (node : d.view id = some n) :
    (∃ copy d', copyTree id d = .ok copy d' ∧ Copied d d' id copy ∧
      ∃ d'', release copy d' = .ok () d'' ∧ d''.view = d.view ∧ d''.size = d.size) ∧
    ∃ d', release id d = .ok () d' ∧ Released d d' id := by
  refine ⟨?_, released_release accounted f node⟩
  obtain ⟨t, read, rfl, stands⟩ := exists_tree_of_linked f node
  obtain ⟨c, d', copied, planted⟩ := copyTree_ok accounted stands (f.nodup_labels t _ stands)
  refine ⟨c.label, d', copied, copied_of_planted read planted, ?_⟩
  obtain ⟨d'', run, emptied⟩ := emptied_vacateAll c none d' [] planted.stands planted.nodup
  rw [vacateAll] at run
  have back : d''.view = d.view := by
    funext x
    by_cases mem : x ∈ c.labels
    · rw [emptied.dead x mem, planted.trades.fresh x mem (by simp)]
    · rw [emptied.kept x mem, planted.trades.frame x (by simp) mem]
  have accounted'' : d''.Accounted := run ▸ planted.trades.accounted.vacateAll [c.label]
  refine ⟨d'', ?_, back, accounted.size_congr accounted'' fun x => by rw [back]⟩
  unfold release
  rw [bind_ok (detach_root planted.stands.top rfl), change_run, run]

/-- An item of a list, with the text below it, beside a slot that has been given up. -/
theorem copyTree_release_list :
    let d := Operation.run { name := "page" } [.createElement "ul", .createElement "li",
      .createText "a", .createText "b", .append ⟨1⟩ ⟨2⟩, .append ⟨0⟩ ⟨1⟩, .release ⟨3⟩]
    (d.Accounted ∧ d.view.Linked ∧ ∃ n, d.view ⟨1⟩ = some n) ∧ d.free = [3] ∧
      (∃ d', copyTree ⟨1⟩ d = .ok ⟨3⟩ d' ∧ Copied d d' ⟨1⟩ ⟨3⟩ ∧
        d'.tree ⟨3⟩ = .ok (.node ⟨3⟩ (.element "li" []) [.node ⟨4⟩ (.text "a") []]) ∧
        ∃ d'', release ⟨3⟩ d' = .ok () d'' ∧ d''.view = d.view ∧ d''.size = d.size) ∧
      ∃ d', release ⟨1⟩ d = .ok () d' ∧ Released d d' ⟨1⟩ ∧
        d'.tree ⟨0⟩ = .ok (.node ⟨0⟩ (.element "ul" []) []) := by
  intro d
  have untangled : Operation.Untangled { name := "page" } [.createElement "ul",
      .createElement "li", .createText "a", .createText "b", .append ⟨1⟩ ⟨2⟩, .append ⟨0⟩ ⟨1⟩,
      .release ⟨3⟩] := by
    refine ⟨id, id, id, id, ?_, ?_, id, trivial⟩
    all_goals
      rintro ⟨-, ⟨n, node, fragment⟩, -⟩
      cases node
      cases fragment
  have sound : d.Sound := Operation.sound_run (sound_empty "page" false) _ untangled
  let list : Node := { data := .element "ul" [], parent := none, children := [⟨1⟩] }
  let item : Node := { data := .element "li" [], parent := some ⟨0⟩, children := [⟨2⟩] }
  let words : Node := { data := .text "a", parent := some ⟨1⟩, children := [] }
  let more : Node := { data := .text "b", parent := none, children := [] }
  let full : Document :=
    { slots := #[some list, some item, some words, some more], name := "page" }
  have left : d = { slots := #[some list, some item, some words, none], free := [3], name := "page" } := by
    change (release ⟨3⟩).after full = _
    have found : full.vacate? ⟨3⟩ = some (more, _) := rfl
    unfold release
    rw [after_bind_ok (detach_root (n := more) rfl rfl), after_ok (change_run ..),
      vacateAll_cons found, show more.children.reverse ++ [] = [] from rfl, vacateAll]
    rfl
  have node : d.view ⟨1⟩ = some item := by rw [left]; rfl
  obtain ⟨⟨copy, d', copied, copy_is, d'', released, back, size⟩, d₁, gone, dropped⟩ :=
    copyTree_release sound.accounted sound.forest.linked node
  have own : ∃ e, copyTree ⟨1⟩ d = .ok ⟨3⟩ e ∧
      e.tree ⟨3⟩ = .ok (.node ⟨3⟩ (.element "li" []) [.node ⟨4⟩ (.text "a") []]) := by
    rw [left]
    exact ⟨_, rfl, rfl⟩
  obtain ⟨e, run, tree⟩ := own
  rw [copied] at run
  cases run
  have empty : d₁.view ⟨0⟩ = some { list with children := [] } :=
    dropped.host ⟨0⟩ item list node rfl (by rw [left]; rfl)
  have stands : d₁.view.Stands none (.node ⟨0⟩ (.element "ul" []) []) := ⟨empty, trivial⟩
  exact ⟨⟨sound.accounted, sound.forest.linked, _, node⟩, by rw [left],
    ⟨d', copied, copy_is, tree, d'', released, back, size⟩, d₁, gone, dropped,
    tree_of_stands stands (by simp)⟩

end Document

end Stencil
