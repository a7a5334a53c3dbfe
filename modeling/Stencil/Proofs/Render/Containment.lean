import Stencil.Proofs.Render.Copies

/-! # Rendering stays inside

Rendering a wired pattern into a settled copy leaves all that is outside of the copy as it was:
the copy that is made for an item has come and gone in the end, and its content is below the
container.
-/

namespace Stencil

open Markup NodeTree Document Edit View

/-- A new copy that has been written into is emptied into a node that was there before, and goes. -/
theorem Instance.New.pour {q : Instance} {d d₁ d₂ : Document} {g : NodeId} {n : Node}
    (new : q.New d d₁) (confined : Confined [q.root] d.view d₁.view) (written : q.Written d₁ d₂)
    (steady : d.Steady) (host : d.view g = some n) (container : n.data.isContainer = true) :
    ∃ d₃ d', moveChildren q.root g d₂ = .ok () d₃ ∧ release q.root d₃ = .ok () d' ∧
      Tended g d d' ∧
      ∀ content more, d.Carries g content → d₂.Carries q.root more → d'.Carries g (content ++ more) := by
  -- The node is old and so outside of the copy, which is a root all the time.
  have host₁ := new.grown.others (by simp) host
  have out : ¬Inside [q.root] d₁.view g := fun inside =>
    new.grown.not_below_new steady new.fresh host (inside_singleton.1 inside)
  obtain ⟨host₂, apart⟩ := written.confined.node host₁ out
  obtain ⟨k, root₁, parentless⟩ := new.root
  obtain ⟨k', m, top, root₂, parent⟩ := written.root
  rw [root₁] at top
  cases top
  obtain ⟨d₃, d', moved, released, steady', confined₂, gone, ⟨l, host', data, parent'⟩, carries⟩ :=
    moveChildren_release written.steady host₂ container root₂ (parent.trans parentless)
      (mt inside_singleton.2 apart)
  have before : Confined [q.root] d.view d₂.view := confined.trans written.confined
  refine ⟨d₃, d', moved, released, {
    steady := steady'
    confined := ((before.mono (by simp)).trans confined₂).forget steady.forest steady'.forest
      new.fresh gone
    top := ⟨n, l, host, host', data, parent'⟩ }, fun content more old => ?_⟩
  refine carries content more (old.congr fun x above => ?_)
  have alive : ∃ j, d.view x = some j := by
    cases above with
    | self => exact ⟨n, host⟩
    | step node _ _ => exact ⟨_, node⟩
  obtain ⟨j, node⟩ := alive
  have off : ¬Inside [q.root] d.view x := fun inside => by
    rw [← steady.forest.eq_of_above_dead new.fresh (inside_singleton.1 inside), new.fresh] at node
    cases node
  exact (before.node node off).1.trans node.symm

namespace Pattern

variable {env : Environment} {i : Instance} {v : View} {g : NodeId}

/-- Parts that are wired are wired outside of a copy that is new. -/
theorem WiredAll.outside_new {d d' : Document} {q : Instance} {ps : List Pattern}
    (steady : d.Steady) (new : q.New d d') (keeps : ∀ {x n}, v x = some n → d.view x = some n)
    (h : WiredAll v ps) : WiredAll (outside [q.root] d'.view) ps := by
  refine WiredAll.mono (fun {x n} node => outside_eq_some.2
    ⟨new.grown.others (by simp) (keeps node), ?_⟩) ps h
  rw [inside_singleton]
  exact new.grown.not_below_new steady new.fresh (keeps node)

theorem Wired.parts : {p : Pattern} → p.Wired v → WiredAll v p.parts
  | ⟨_, _, _⟩, h => h.2.2.2

/-- Rendering a part stays inside of any copy outside of which the parts of it are wired. -/
def Contained (env : Environment) (p : Pattern) : Prop :=
  ∀ i v scope, WiredAll v p.parts → Rendering.Writes i v (p.render env scope i)

/-- One more item: a copy is made, rendered into, emptied into the container and given up. -/
theorem writes_item (standard : env.handlers = .standard) {part : Pattern} (wired : part.Wired v)
    (contained : part.Contained env) (fills : i.Fills g) (scope : Scope) :
    Rendering.Writes i v
      (Rendering.means.addCopy env g part fun copy => part.render env scope copy) := by
  intro c steady settled same
  have keeps : ∀ {x n}, v x = some n → c.document.view x = some n := by
    intro x n node
    rw [← same] at node
    exact (outside_eq_some.1 node).1
  obtain ⟨q, d₁, made, new, confined⟩ := env.instantiate_new standard wired keeps steady
  obtain ⟨c₂, rendered, written⟩ := contained q _ scope
    (wired.parts.outside_new steady new keeps) { c with document := d₁ } new.grown.steady
    new.settled rfl
  obtain ⟨n, host, element⟩ := settled.element g fills.hosts
  obtain ⟨d₃, d', moved, released, tended, -⟩ := new.pour confined written steady host
    (isContainer_of_isElement element)
  exact ⟨{ c₂ with document := d' }, Rendering.addCopy_ok made rendered moved released,
    settled.tended steady fills tended⟩

/-- A region is emptied. -/
theorem writes_discard (fills : i.Fills g) :
    Rendering.Writes i v (Rendering.edit (discardChildren g)) := by
  intro c steady settled _
  obtain ⟨n, host, -⟩ := settled.element g fills.hosts
  obtain ⟨d', run, -, tended⟩ := discardChildren_tended steady host
  exact ⟨_, Rendering.edit_ok run, settled.tended steady fills tended⟩

/-- A region is written into, if each of its items is. -/
theorem writes_region {region : Region} (fills : i.Fills region.container) (value : Option Value)
    {add : Value → Rendering Unit} (each : ∀ item, Rendering.Writes i v (add item)) :
    Rendering.Writes i v (Rendering.means.writeRegion region value add) := by
  cases value with
  | none => exact .nothing
  | some value =>
      cases value with
      | null => exact writes_discard fills
      | array items => exact (writes_discard fills).seq (.forM fun item _ => each item)
      | _ => exact .note _

theorem writes_regions (standard : env.handlers = .standard) (scope : Scope) {parts : List Pattern}
    (wired : WiredAll v parts) (contained : ∀ part ∈ parts, part.Contained env)
    {regions : List Region} (own : ∀ r ∈ regions, r ∈ i.regions) :
    Rendering.Writes i v (Rendering.means.writeRegions env scope regions parts) := by
  induction parts generalizing regions with
  | nil =>
      rw [Means.writeRegions]
      exact .nothing
  | cons part parts ih =>
      cases regions with
      | nil =>
          rw [Means.writeRegions]
          exact .nothing
      | cons region regions =>
          have fills : i.Fills region.container := .inr ⟨region, own region (by simp), rfl⟩
          rw [Means.writeRegions]
          refine (writes_region fills _ fun item => ?_).seq (ih wired.2
            (fun p mem => contained p (by simp [mem])) fun r mem => own r (by simp [mem]))
          exact writes_item standard wired.1 (contained part (by simp)) fills _

mutual

theorem contained (standard : env.handlers = .standard) : (p : Pattern) → p.Contained env
  | ⟨_, _, parts⟩ => fun i v scope wired => by
      rw [render, Means.write]
      exact (i.writes_bindings v scope).seq
        (writes_regions standard scope wired (contained_all standard parts) fun _ mem => mem)

theorem contained_all (standard : env.handlers = .standard) :
    (ps : List Pattern) → ∀ p ∈ ps, p.Contained env
  | [] => List.forall_mem_nil _
  | p :: ps => List.forall_mem_cons.2 ⟨contained standard p, contained_all standard ps⟩

end

end Pattern

end Stencil
