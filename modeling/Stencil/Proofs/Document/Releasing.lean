import Stencil.Proofs.Document.Insertion

/-! # Giving nodes up

The nodes that are given up are those of the stack and what lies below them. In a forest
giving up a root thins the forest; nothing that stays is touched.
-/

namespace Stencil

open Markup

namespace View

theorem Above.of_thinned {v w : View} (t : Thinned v w) {a x : NodeId} (h : Above w a x) :
    Above v a x := by
  induction h with
  | self => exact .self
  | step node parent _ ih => exact .step (t.node node) parent ih

end View

namespace Document

open Edit View

variable {d : Document}

/-! ## The stack -/

/-- What giving up a stack of nodes does to a view. -/
structure Vacated (stack : List NodeId) (v w : View) : Prop where
  sub : ∀ x, w x = v x ∨ w x = none
  gone : ∀ x ∈ stack, w x = none
  down : ∀ {x : NodeId} {n : Node}, v x = some n → w x = none → ∀ c ∈ n.children, w c = none
  up : ∀ {x : NodeId} {n : Node}, v x = some n → w x = none →
    x ∈ stack ∨ ∃ p m, v p = some m ∧ x ∈ m.children ∧ w p = none

theorem Vacated.nil (v : View) : Vacated [] v v where
  sub _ := .inl rfl
  gone _ mem := by cases mem
  down node gone := by
    rw [node] at gone
    cases gone
  up node gone := by
    rw [node] at gone
    cases gone

theorem Vacated.skip {id : NodeId} {stack : List NodeId} {v w : View} (h : Vacated stack v w)
    (empty : v id = none) : Vacated (id :: stack) v w where
  sub := h.sub
  gone x mem := by
    rcases List.mem_cons.1 mem with rfl | mem
    · exact (h.sub x).elim (fun same => same.trans empty) fun away => away
    · exact h.gone x mem
  down := h.down
  up node gone := (h.up node gone).imp_left (List.mem_cons_of_mem id)

/-- A node is dropped, and its children come onto the stack. -/
theorem Vacated.take {id : NodeId} {n : Node} {stack : List NodeId} {v w : View}
    (node : v id = some n) (h : Vacated (n.children.reverse ++ stack) (View.drop id v) w) :
    Vacated (id :: stack) v w := by
  have gone : w id = none := (h.sub id).elim (fun same => same.trans (drop_self id v))
    fun away => away
  have kept : ∀ {x m}, v x = some m → x ≠ id → View.drop id v x = some m := fun hx ne =>
    (drop_of_ne v ne).trans hx
  refine ⟨fun x => ?_, fun x mem => ?_, fun {x m} hx hw c mem => ?_, fun {x m} hx hw => ?_⟩
  · by_cases hx : x = id
    · exact .inr (hx ▸ gone)
    · exact drop_of_ne v hx ▸ h.sub x
  · rcases List.mem_cons.1 mem with rfl | mem
    · exact gone
    · exact h.gone x (List.mem_append_right _ mem)
  · by_cases same : x = id
    · subst same
      rw [node] at hx
      cases hx
      exact h.gone c (List.mem_append_left _ (List.mem_reverse.2 mem))
    · exact h.down (kept hx same) hw c mem
  · by_cases same : x = id
    · exact .inl (same ▸ List.mem_cons_self ..)
    · rcases h.up (kept hx same) hw with mem | ⟨p, k, parent, mem, away⟩
      · rcases List.mem_append.1 mem with mem | mem
        · exact .inr ⟨id, n, node, List.mem_reverse.1 mem, gone⟩
        · exact .inl (List.mem_cons_of_mem _ mem)
      · refine .inr ⟨p, k, ?_, mem, away⟩
        have other : p ≠ id := by
          rintro rfl
          rw [drop_self] at parent
          cases parent
        rwa [drop_of_ne v other] at parent

theorem vacateAll_cons {rest : Document} {id : NodeId} {n : Node} {stack : List NodeId}
    (found : d.vacate? id = some (n, rest)) :
    d.vacateAll (id :: stack) = rest.vacateAll (n.children.reverse ++ stack) := by
  rw [vacateAll]
  split
  · rename_i missing
    rw [found] at missing
    cases missing
  · rename_i same
    rw [found] at same
    cases same
    rfl

theorem vacateAll_skip {id : NodeId} {stack : List NodeId} (missing : d.vacate? id = none) :
    d.vacateAll (id :: stack) = d.vacateAll stack := by
  rw [vacateAll]
  split
  · rfl
  · rename_i found
    rw [missing] at found
    cases found

theorem vacated_vacateAll (d : Document) (stack : List NodeId) :
    Vacated stack d.view (d.vacateAll stack).view := by
  induction d, stack using vacateAll.induct with
  | case1 d =>
      rw [vacateAll]
      exact .nil d.view
  | case2 d id stack h ih =>
      rw [vacateAll_skip h]
      exact ih.skip (vacate?_eq_none h)
  | case3 d id stack n rest h _ ih =>
      obtain ⟨node, view⟩ := view_vacate? h
      rw [vacateAll_cons h]
      exact .take node (view ▸ ih)

/-- What is kept by emptying one slot is kept by giving up a whole stack. -/
theorem vacateAll_induct {P : Document → Prop}
    (h : ∀ {d rest : Document} {id : NodeId} {n : Node}, d.vacate? id = some (n, rest) → P d → P rest)
    (d : Document) (stack : List NodeId) (start : P d) : P (d.vacateAll stack) := by
  induction d, stack using vacateAll.induct with
  | case1 d =>
      rw [vacateAll]
      exact start
  | case2 d id stack missing ih =>
      rw [vacateAll_skip missing]
      exact ih start
  | case3 d id stack n rest found _ ih =>
      rw [vacateAll_cons found]
      exact ih (h found start)

theorem Accounted.vacateAll (h : d.Accounted) (stack : List NodeId) :
    (d.vacateAll stack).Accounted :=
  vacateAll_induct (fun found accounted => accounted.vacate? found) d stack h

/-- Giving up nodes touches nothing outside a set that holds them and is closed under
children. -/
theorem vacateAll_frame (inside : NodeId → Prop) (d : Document) (stack : List NodeId)
    (mem : ∀ x ∈ stack, inside x)
    (closed : ∀ {x n}, inside x → d.view x = some n → ∀ c ∈ n.children, inside c)
    {x : NodeId} (out : ¬inside x) : (d.vacateAll stack).view x = d.view x := by
  induction d, stack using vacateAll.induct with
  | case1 d => rw [vacateAll]
  | case2 d id stack missing ih =>
      rw [vacateAll_skip missing]
      exact ih (fun y hy => mem y (List.mem_cons_of_mem id hy)) closed
  | case3 d id stack n rest found _ ih =>
      obtain ⟨node, view⟩ := view_vacate? found
      have top := mem id (by simp)
      have apart : x ≠ id := fun same => out (same ▸ top)
      rw [vacateAll_cons found, ih, view, drop_of_ne _ apart]
      · intro y hy
        rcases List.mem_append.1 hy with hy | hy
        · exact closed top node y (List.mem_reverse.1 hy)
        · exact mem y (List.mem_cons_of_mem id hy)
      · intro y m hy there
        have other : y ≠ id := by
          rintro rfl
          rw [view, drop_self] at there
          cases there
        rw [view, drop_of_ne _ other] at there
        exact closed hy there

/-! ## Releasing -/

/-- Giving up a root of a forest. -/
theorem thinned_of_vacated {id : NodeId} {v w : View} (f : v.Forest) (h : Vacated [id] v w)
    (root : ∀ n, v id = some n → n.parent = none) : Thinned v w where
  sub := h.sub
  down := h.down
  up {x p n} node gone parent := by
    rcases h.up node gone with mem | ⟨q, m, above, mem, away⟩
    · rw [List.mem_singleton] at mem
      subst mem
      rw [root n node] at parent
      cases parent
    · obtain ⟨k, child, up⟩ := f.child above mem
      rw [node] at child
      cases child
      rw [parent] at up
      cases up
      exact away

theorem release_ok (f : d.view.Forest) {id : NodeId} {n : Node} (node : d.view id = some n) :
    ∃ d', release id d = .ok () d' ∧ Thinned (View.prune [id] d.view) d'.view ∧
      d'.view id = none := by
  obtain ⟨d₁, run, view⟩ := detach_ok f.linked node
  have vacated := vacated_vacateAll d₁ [id]
  refine ⟨d₁.vacateAll [id], ?_, ?_, vacated.gone id (by simp)⟩
  · unfold release
    rw [bind_ok run]
    rfl
  · rw [view] at vacated
    refine thinned_of_vacated (f.prune [id]) vacated fun m pruned => ?_
    obtain ⟨k, -, -, parent, -⟩ := prune_eq_some pruned
    simpa using parent

theorem release_error {id : NodeId} (node : d.view id = none) :
    release id d = .error (.unknownNode id) d := by
  unfold release
  exact bind_error (detach_error node)

end Document

end Stencil
