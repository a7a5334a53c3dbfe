import Stencil.Proofs.Document.Surgery

/-! # Copying by parts

A copy of a node alone that is given copies of the children, one after the other, is the copy of
the whole tree: to append a copy that has just been made is to hang it up.
-/

namespace Stencil

open Markup NodeTree

namespace Document

open Edit View

variable {d : Document}

/-- A copy of a tree that is put into a root is hung up there. -/
theorem appendCopy_ok {t : NodeTree NodeId} {p root : NodeId} {n : Node} (h : d.Sound)
    (host : d.view root = some n) (container : n.data.isContainer = true)
    (stands : d.view.Stands (some p) t) :
    appendCopy root t.label d = .ok () (d.hung root [t]) ∧ (d.hung root [t]).Sound := by
  obtain ⟨s, label, planted⟩ := planted_plant t none d h.accounted
  have copied := copyTree_eq h.accounted stands (h.forest.nodup_labels t _ stands)
  have sound := sound_plant h (h.forest.fits_of_stands t _ stands)
  have mem : (d.plant none t).1 ∈ s.labels := label ▸ label_mem_labels s
  have apart := planted.trades.not_above h.forest mem host
  have host₁ := planted.trades.kept host (by simp)
  have node := planted.stands.top
  have solid : s.data ≠ .fragment := by
    rw [← data_shape, planted.shape, data_shape]
    intro fragment
    cases h.forest.fragment_parent stands.top fragment
  have sound' := sound.append (p := root) (c := (d.plant none t).1) fun _ entangled => apart entangled.2
  rw [label] at node
  have run := append_new host₁ container node solid rfl (sound.forest.rooted host₁) apart
  rw [hang_plant h.accounted host t] at run
  rw [after_ok run] at sound'
  exact ⟨(bind_ok copied).trans run, sound'⟩

/-- Copies of trees that are put into a root one by one are hung up there. -/
theorem appendCopies_ok {ts : List (NodeTree NodeId)} {p root : NodeId} {n : Node} (h : d.Sound)
    (host : d.view root = some n) (top : n.parent = none)
    (container : ts ≠ [] → n.data.isContainer = true) (stands : d.view.StandAll (some p) ts) :
    (ts.map label).forM (appendCopy root) d = .ok () (d.hung root ts) := by
  induction ts generalizing d n with
  | nil => exact congrArg _ (hung_nil host).symm
  | cons t ts ih =>
      obtain ⟨first, sound⟩ := appendCopy_ok h host (container (by simp)) stands.1
      have still : ∀ u ∈ ts, (d.hung root [t]).view.Stands (some p) u := by
        intro u mem
        have old := View.standAll_iff.1 stands.2 u mem
        refine old.congr fun x listed => ?_
        obtain ⟨m, node⟩ := Option.ne_none_iff_exists'.1 (old.live listed)
        rw [node, hung_kept h.accounted node]
        rintro rfl
        have atop := (old.above listed).eq_of_top host top
        have parent := old.top
        rw [atop, host] at parent
        rw [Option.some.inj parent] at top
        cases top
      have others := ih sound (view_hung h.accounted host) top (fun _ => container (by simp))
        (View.standAll_iff.2 still)
      rw [List.map_cons, List.forM, bind_ok first, others, ← hung_cons h.accounted host]

/-- Copying by parts is copying. -/
theorem copyByParts_eq (h : d.Sound) {p : Option NodeId} {P : NodeTree NodeId}
    (stands : d.view.Stands p P) : copyByParts P.label d = copyTree P.label d := by
  obtain ⟨id, data, children⟩ := P
  have whole := copyTree_eq h.accounted stands (h.forest.nodup_labels _ p stands)
  have planted := planted_create h.accounted data
  have sound := sound_create h (h.forest.attributes stands.1)
  have container : children ≠ [] → data.isContainer = true := fun some_child =>
    h.forest.container stands.1 (by simpa using some_child)
  have filled := appendCopies_ok sound planted.stands.1 rfl container
    (View.standAll_iff.2 fun t mem =>
      planted.trades.stands (View.standAll_iff.1 stands.2 t mem) (by simp))
  rw [whole, plant_node h.accounted id data children, copyByParts, NodeTree.label,
    bind_ok (copy_ok stands.1),
    bind_ok (ask_ok (children_eq_ok (planted.trades.kept stands.1 (by simp))))]
  exact bind_ok filled

end Document

end Stencil
