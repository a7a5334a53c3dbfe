import Stencil.Proofs.Document.Reclaiming

/-! # The numbers of nodes

Whatever is done to a document, entangled edits and edits of nodes that are gone included, its
free list names exactly the empty slots, each of them once. So the size is the number of nodes,
and a number that is handed out was the number of no node.
-/

namespace Stencil

open Markup NodeTree

namespace Edit

variable {α β : Type} {d d' : Document}

/-- What an edit gives, unless it is refused. -/
def given? (e : Edit α) (d : Document) : Option α :=
  match e d with
  | .ok a _ => some a
  | .error _ _ => none

theorem run_of_given? {e : Edit α} {a : α} (h : e.given? d = some a) : e d = .ok a (e.after d) := by
  unfold given? at h
  split at h
  · rename_i b d' run
    cases h
    rw [after_ok run, run]
  · cases h

end Edit

namespace Document

open Edit

/-- A number has been handed out for a node with everything below it. None of these nodes was
there before, no two of them have the same number, and all other numbers are as they were. -/
structure HandsOut (d d' : Document) (id : NodeId) : Prop where
  tree : ∃ t, d'.tree id = .ok t ∧ t.labels.Nodup ∧
    (∀ x ∈ t.labels, d.view x = none ∧ d'.view x ≠ none) ∧
    ∀ x, x ∉ t.labels → d'.view x = d.view x
  fresh : d.view id = none
  kept : ∀ x n, d.view x = some n → d'.view x = some n

variable {d d' : Document} {id : NodeId}

/-- What is planted takes numbers that no node had. -/
theorem Planted.handsOut {ι : Type} {t : NodeTree ι} {s : NodeTree NodeId}
    (h : Planted d d' none t s) : HandsOut d d' s.label where
  tree := ⟨s, tree_of_stands h.stands h.nodup, h.nodup,
    fun x mem => ⟨h.trades.fresh x mem (by simp), h.stands.live mem⟩,
    fun x out => h.trades.frame x (by simp) out⟩
  fresh := h.trades.fresh _ (label_mem_labels s) (by simp)
  kept _ _ node := h.trades.kept node (by simp)

theorem handsOut_create (h : d.Accounted) (data : NodeData) :
    HandsOut d (d.create data).2 (d.create data).1 :=
  (planted_create h data).handsOut

theorem handsOut_plant {ι : Type} (h : d.Accounted) (t : NodeTree ι) :
    HandsOut d (d.plant none t).2 (d.plant none t).1 := by
  obtain ⟨s, label, planted⟩ := planted_plant t none d h
  exact label ▸ planted.handsOut

theorem handsOut_plantMarkup (h : d.Accounted) {markup : String} {flaws : List SyntaxError}
    (run : plantMarkup markup d = .ok (id, flaws) d') : HandsOut d d' id := by
  have fresh := handsOut_plant h (.node () .fragment (parse markup).1)
  obtain ⟨given, after⟩ := EStateM.Result.ok.inj ((plantMarkup_run h markup).symm.trans run)
  rwa [after, (Prod.mk.inj given).1] at fresh

/-- Markup that is refused for its flaws hands out nothing. -/
theorem handsOut_parseMarkup (h : d.Accounted) {markup : String}
    (run : parseMarkup markup d = .ok id d') : HandsOut d d' id := by
  have fresh := handsOut_plant h (.node () .fragment (parse markup).1)
  rwa [parseMarkup_ok h run] at fresh

theorem handsOut_copy (h : d.Accounted) {source : NodeId} (run : copy source d = .ok id d') :
    HandsOut d d' id := by
  obtain ⟨data, -, made⟩ := of_ask_bind run
  cases made
  exact handsOut_create h data

theorem handsOut_copyTree (h : d.Accounted) {source : NodeId}
    (run : copyTree source d = .ok id d') : HandsOut d d' id := by
  obtain ⟨t, planted⟩ := exists_plant_of_copyTree h run
  have fresh := handsOut_plant h t
  rwa [planted] at fresh

end Document

namespace Operation

open Edit Document

/-- The number that an operation hands out, if it hands out any and is not refused. -/
def handed? (d : Document) : Operation → Option NodeId
  | createElement name => (Document.createElement name).given? d
  | createText value => (Document.createText value).given? d
  | createComment value => (change fun d => d.create (.comment value)).given? d
  | createDoctype value => (change fun d => d.create (.doctype value)).given? d
  | createFragment => (change fun d => d.create .fragment).given? d
  | plantMarkup markup => ((Document.plantMarkup markup).given? d).map Prod.fst
  | parseMarkup markup => (Document.parseMarkup markup).given? d
  | copy id => (Document.copy id).given? d
  | copyTree id => (Document.copyTree id).given? d
  | _ => none

variable {d : Document} {id : NodeId}

/-- A number that is handed out is a new one, however the nodes are linked. -/
theorem handsOut_of_handed? (h : d.Accounted) (op : Operation) (handed : op.handed? d = some id) :
    HandsOut d (op.perform d) id := by
  cases op with
  | createElement name => cases handed; exact handsOut_create h _
  | createText value => cases handed; exact handsOut_create h _
  | createComment value => cases handed; exact handsOut_create h _
  | createDoctype value => cases handed; exact handsOut_create h _
  | createFragment => cases handed; exact handsOut_create h _
  | plantMarkup markup =>
      rw [handed?, Option.map_eq_some_iff] at handed
      obtain ⟨⟨root, flaws⟩, given, rfl⟩ := handed
      exact handsOut_plantMarkup h (run_of_given? given)
  | parseMarkup markup => exact handsOut_parseMarkup h (run_of_given? handed)
  | copy source => exact handsOut_copy h (run_of_given? handed)
  | copyTree source => exact handsOut_copyTree h (run_of_given? handed)
  | _ => cases handed

/-- After any run of operations, whatever nodes they are given and whether they are refused, the
free list names the empty slots, each of them once, and the size is the number of nodes. A number
that the next operation hands out is that of a node that was not there, and so are the numbers of
all nodes below it. -/
theorem numbers_run (name : String) (strict : Bool) (ops : List Operation) :
    let d := run { name := name, strict := strict } ops
    d.Accounted ∧ d.free.length ≤ d.slots.size ∧ d.size = d.inUse.length ∧
      ∀ (op : Operation) (id : NodeId), op.handed? d = some id → HandsOut d (op.perform d) id := by
  intro d
  have accounted : d.Accounted := lasting_run lasting_accounted ops (accounted_empty name strict)
  exact ⟨accounted, accounted.length_free_le, accounted.size_eq,
    fun op _ handed => handsOut_of_handed? accounted op handed⟩

/-- A fragment is put before its own child, which is refused when the fragment is empty already. It
is given up, which leaves the child with a parent that is gone, so that the child cannot be given
up; then the slot of the fragment is used again. -/
theorem numbers_run_reused :
    let ops : List Operation := [.createFragment, .createElement "p", .append ⟨0⟩ ⟨1⟩,
      .insertBefore ⟨0⟩ ⟨0⟩ ⟨1⟩, .release ⟨0⟩, .release ⟨1⟩]
    let d := run { name := "page" } ops
    (createElement "b").handed? d = some ⟨0⟩ ∧
      d.Accounted ∧ d.free.length ≤ d.slots.size ∧ d.size = d.inUse.length ∧
      HandsOut d ((createElement "b").perform d) ⟨0⟩ := by
  intro ops d
  let fragment : Node := { data := .fragment, parent := none, children := [] }
  let orphan : Node := { data := .element "p" [], parent := some ⟨0⟩, children := [] }
  have gone : run { name := "page" } (ops.take 5) =
      { slots := #[none, some orphan], free := [0], name := "page" } := by
    change (Document.release ⟨0⟩).after (run { name := "page" } (ops.take 4)) = _
    have found : (run { name := "page" } (ops.take 4)).vacate? ⟨0⟩ = some (fragment, _) := rfl
    unfold Document.release
    rw [after_bind_ok (detach_root (n := fragment) rfl rfl), after_ok (change_run ..),
      vacateAll_cons found, show fragment.children.reverse ++ [] = [] from rfl, vacateAll]
    rfl
  have handed : (createElement "b").handed? d = some ⟨0⟩ := by
    have last : d = (release ⟨1⟩).perform (run { name := "page" } (ops.take 5)) := rfl
    rw [last, gone]
    rfl
  obtain ⟨accounted, room, size, numbers⟩ := numbers_run "page" false ops
  exact ⟨handed, accounted, room, size, numbers (createElement "b") ⟨0⟩ handed⟩

end Operation

end Stencil
