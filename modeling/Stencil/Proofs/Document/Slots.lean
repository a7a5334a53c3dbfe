import Stencil.Document.Edit

/-! # Slots

A document is seen through its nodes by number. Every change of the slots is one equation
on that view. The slots are accounted for when the free list names exactly the empty ones,
each of them once; only then does a new node come into a slot that was empty.
-/

namespace Stencil

/-- The nodes of a document by number. -/
abbrev View : Type := NodeId → Option Node

namespace View

/-- The view with one node changed, if there is one. -/
def alter (id : NodeId) (f : Node → Node) (v : View) : View := fun x =>
  if x = id then (v x).map f else v x

/-- The view with a node at a number. -/
def put (id : NodeId) (n : Node) (v : View) : View := fun x => if x = id then some n else v x

/-- The view without the node at a number. -/
def drop (id : NodeId) (v : View) : View := fun x => if x = id then none else v x

@[simp] theorem put_self (id : NodeId) (n : Node) (v : View) : v.put id n id = some n := by
  simp [put]

theorem put_of_ne {id x : NodeId} (n : Node) (v : View) (h : x ≠ id) : v.put id n x = v x := by
  simp [put, h]

@[simp] theorem drop_self (id : NodeId) (v : View) : v.drop id id = none := by simp [drop]

theorem drop_of_ne {id x : NodeId} (v : View) (h : x ≠ id) : v.drop id x = v x := by
  simp [drop, h]

theorem alter_of_ne {id x : NodeId} (f : Node → Node) (v : View) (h : x ≠ id) :
    v.alter id f x = v x := by
  simp [alter, h]

theorem alter_self {id : NodeId} {n : Node} (f : Node → Node) {v : View} (h : v id = some n) :
    v.alter id f id = some (f n) := by
  simp [alter, h]

theorem alter_eq_put {id : NodeId} {n : Node} (f : Node → Node) {v : View} (h : v id = some n) :
    v.alter id f = v.put id (f n) := by
  funext x
  by_cases hx : x = id
  · subst hx
    simp [alter, put, h]
  · rw [alter_of_ne f v hx, put_of_ne _ v hx]

end View

namespace Document

/-- The nodes of a document by number, as one function. -/
def view (d : Document) : View := d.node?

theorem node_eq_ok {d : Document} {id : NodeId} {n : Node} (h : d.view id = some n) :
    d.node id = .ok n := by
  simp [node, show d.node? id = some n from h]

theorem node_eq_error {d : Document} {id : NodeId} (h : d.view id = none) :
    d.node id = .error (.unknownNode id) := by
  simp [node, show d.node? id = none from h]

theorem index_lt_of_view {d : Document} {id : NodeId} {n : Node} (h : d.view id = some n) :
    id.index < d.slots.size :=
  (node?_eq_some h).1

theorem view_of_slot {d : Document} {id : NodeId} {slot : Option Node}
    (h : d.slots[id.index]? = some slot) : d.view id = slot := by
  cases slot <;> simp [view, node?, h]

theorem view_of_le {d : Document} {id : NodeId} (h : d.slots.size ≤ id.index) :
    d.view id = none := by
  have outside : d.slots[id.index]? = none := Array.getElem?_eq_none_iff.2 h
  simp [view, node?, outside]

/-- There are no more nodes than slots. -/
theorem length_le_of_live {d : Document} {ids : List NodeId} (nodup : ids.Nodup)
    (live : ∀ x ∈ ids, d.view x ≠ none) : ids.length ≤ d.slots.size := by
  have indices : (ids.map NodeId.index).Nodup :=
    List.Pairwise.map _ (fun a b ne same => ne (by cases a; cases b; simp_all)) nodup
  have below : ids.map NodeId.index ⊆ List.range d.slots.size := by
    intro i hi
    obtain ⟨x, hx, rfl⟩ := List.mem_map.1 hi
    cases node : d.view x with
    | none => exact (live x hx node).elim
    | some n => exact List.mem_range.2 (index_lt_of_view node)
  simpa using indices.length_le_of_subset below

/-! ## Changes of single slots -/

/-- Changing a node changes the view at its number and nowhere else. -/
theorem view_modify (d : Document) (id : NodeId) (f : Node → Node) :
    (d.modify id f).view = View.alter id f d.view := by
  funext x
  by_cases h : id.index = x.index
  · have same : x = id := by cases x; cases id; simp_all
    subst same
    cases hs : d.slots[x.index]? with
    | none => simp [view, node?, modify, View.alter, Array.getElem?_modify, hs]
    | some slot => cases slot <;> simp [view, node?, modify, View.alter, Array.getElem?_modify, hs]
  · have other : x ≠ id := fun same => h (by rw [same])
    simp [view, node?, modify, View.alter, Array.getElem?_modify, h, other]

theorem view_vacate? {d rest : Document} {id : NodeId} {n : Node}
    (h : d.vacate? id = some (n, rest)) :
    d.view id = some n ∧ rest.view = View.drop id d.view := by
  obtain ⟨m, found, same⟩ := Option.map_eq_some_iff.1 h
  simp only [Prod.mk.injEq] at same
  obtain ⟨rfl, rfl⟩ := same
  refine ⟨found, ?_⟩
  have bound := index_lt_of_view found
  funext x
  by_cases hx : id.index = x.index
  · have same : x = id := by cases x; cases id; simp_all
    subst same
    simp [view, node?, View.drop, bound]
  · have other : x ≠ id := fun same => hx (by rw [same])
    simp [view, node?, View.drop, hx, other]

theorem vacate?_eq_none {d : Document} {id : NodeId} (h : d.vacate? id = none) :
    d.view id = none := by
  simpa [vacate?, view] using h

/-! ## Accounting -/

/-- The free list names exactly the empty slots, each of them once. -/
structure Accounted (d : Document) : Prop where
  nodup : d.free.Nodup
  mem_free_iff : ∀ i, i ∈ d.free ↔ d.slots[i]? = some none

theorem accounted_empty (name : String) (strict : Bool) :
    Accounted { name := name, strict := strict } :=
  ⟨List.nodup_nil, fun i => by simp⟩

namespace Accounted

variable {d : Document}

/-- A new node takes a number that no node had, and changes nothing else. -/
theorem allocate (h : d.Accounted) (n : Node) :
    d.view (d.allocate n).1 = none ∧
      (d.allocate n).2.view = View.put (d.allocate n).1 n d.view ∧
      (d.allocate n).2.Accounted := by
  cases hf : d.free with
  | nil =>
      have whole : d.allocate n = (⟨d.slots.size⟩, { d with slots := d.slots.push (some n) }) := by
        simp [Document.allocate, hf]
      rw [whole]
      refine ⟨view_of_le (Nat.le_refl _), ?_, ?_, ?_⟩
      · funext x
        by_cases hx : x.index = d.slots.size
        · have same : x = ⟨d.slots.size⟩ := by cases x; simp_all
          subst same
          simp [view, node?, View.put]
        · have other : x ≠ ⟨d.slots.size⟩ := fun same => hx (by rw [same])
          simp [view, node?, View.put, Array.getElem?_push, hx, other]
      · simp [hf]
      · intro i
        have none_free := h.mem_free_iff i
        simp only [hf, List.not_mem_nil, false_iff] at none_free
        simp only [hf, List.not_mem_nil, Array.getElem?_push, false_iff]
        split <;> simp_all
  | cons slot rest =>
      have whole : d.allocate n =
          (⟨slot⟩, { d with slots := d.slots.setIfInBounds slot (some n), free := rest }) := by
        simp [Document.allocate, hf]
      have empty : d.slots[slot]? = some none := (h.mem_free_iff slot).1 (by simp [hf])
      have bound : slot < d.slots.size := (Array.getElem?_eq_some_iff.1 empty).1
      have distinct : slot ∉ rest ∧ rest.Nodup := by
        have := h.nodup
        rwa [hf, List.nodup_cons] at this
      rw [whole]
      refine ⟨view_of_slot empty, ?_, distinct.2, ?_⟩
      · funext x
        by_cases hx : slot = x.index
        · have same : x = ⟨slot⟩ := by cases x; simp_all
          subst same
          simp [view, node?, View.put, bound]
        · have other : x ≠ ⟨slot⟩ := fun same => hx (by rw [same])
          simp [view, node?, View.put, hx, other]
      · intro i
        have free_i := h.mem_free_iff i
        rw [hf, List.mem_cons] at free_i
        by_cases hi : slot = i
        · subst hi
          simp [distinct.1, bound]
        · simp only [Array.getElem?_setIfInBounds, hi, if_false]
          rw [← free_i]
          exact ⟨Or.inr, fun m => m.resolve_left fun same => hi same.symm⟩

theorem modify (h : d.Accounted) (id : NodeId) (f : Node → Node) : (d.modify id f).Accounted := by
  refine ⟨h.nodup, fun i => ?_⟩
  rw [show (d.modify id f).free = d.free from rfl, h.mem_free_iff i]
  simp only [Document.modify, Array.getElem?_modify]
  split
  · cases d.slots[i]? with
    | none => simp
    | some slot => cases slot <;> simp
  · rfl

theorem vacate? (h : d.Accounted) {rest : Document} {id : NodeId} {n : Node}
    (hv : d.vacate? id = some (n, rest)) : rest.Accounted := by
  obtain ⟨m, found, same⟩ := Option.map_eq_some_iff.1 hv
  simp only [Prod.mk.injEq] at same
  obtain ⟨rfl, rfl⟩ := same
  obtain ⟨bound, slot⟩ := node?_eq_some found
  have inUse : d.slots[id.index]? ≠ some none := by
    rw [Array.getElem?_eq_getElem bound, slot]
    simp
  refine ⟨List.nodup_cons.2 ⟨fun m => inUse ((h.mem_free_iff _).1 m), h.nodup⟩, fun i => ?_⟩
  by_cases hi : id.index = i
  · subst hi
    simp [bound]
  · simp only [List.mem_cons, Array.getElem?_setIfInBounds, hi, if_false]
    rw [h.mem_free_iff i]
    exact ⟨fun m => m.resolve_left fun same => hi same.symm, Or.inr⟩

end Accounted

end Document

end Stencil
