import Stencil.Proofs.Render.Containment
import Stencil.Proofs.Render.Telling
import Stencil.Proofs.Render.Upholding

/-! # Failing handlers

A rendering into a settled live tree goes on after every call that fails, as if the call had not
been made, unless the document refuses: then it ends with that call. Both are said of a rendering
and its telling at once, one part of the rendering after the other, copies for items included.
-/

namespace Stencil

open Markup Document Edit View

/-- Nodes that are there and not in the tree of another. -/
def View.Beside (v : View) (r : NodeId) (w : View) : Prop :=
  ∀ ⦃x n⦄, v x = some n → w x = some n ∧ ¬Above w r x

theorem View.Beside.spared {v w u : View} {r : NodeId} (h : v.Beside r w) (f : Forest w)
    (spared : Spared [r] w u) : v.Beside r u := by
  intro x n node
  obtain ⟨there, apart⟩ := h node
  have out : ¬Inside [r] w x := mt inside_singleton.1 apart
  exact ⟨spared there out, mt inside_singleton.2 (spared.not_inside f there out)⟩

/-- A rendering and its telling write into a live tree, beside some nodes: they go through, or a
document ends both. -/
def Isolated (i : Instance) (v : View) (body : Rendering Unit) (told : Telling Unit) : Prop :=
  ∀ d : Document, d.Sound → i.bare.Settled d.view → v.Beside i.root d.view →
    ∃ d' deeds, i.bare.Upheld d d' ∧
      (Performs body told d d' deeds ∨ ∃ e, Aborts body told d d' deeds e)

namespace Isolated

variable {i : Instance} {v : View} {body next : Rendering Unit} {told further : Telling Unit}

theorem nothing : Isolated i v (pure ()) (pure ()) := fun d sound settled _ =>
  ⟨d, [], .refl sound settled, .inl (.nothing d)⟩

theorem come (region : Region) (value : Option Value) :
    Isolated i v (Rendering.means.come region value) (Telling.means.come region value) :=
  fun d sound settled _ => ⟨d, _, .refl sound settled, .inl (.come d region value)⟩

theorem seq (h : Isolated i v body told) (k : Isolated i v next further) :
    Isolated i v (body >>= fun _ => next) (told >>= fun _ => further) := by
  intro d sound settled beside
  obtain ⟨d₁, deeds, upheld, performs | ⟨e, aborts⟩⟩ := h d sound settled beside
  · obtain ⟨d₂, more, upheld', outcome⟩ := k d₁ upheld.sound upheld.settled
      (beside.spared sound.forest upheld.spared)
    refine ⟨d₂, deeds ++ more, upheld.trans sound upheld', ?_⟩
    rcases outcome with performs' | ⟨e, aborts⟩
    · exact .inl (performs.seq performs')
    · exact .inr ⟨e, performs.aborts aborts⟩
  · exact ⟨d₁, deeds, upheld, .inr ⟨e, aborts.seq next further⟩⟩

theorem forM {γ : Type} {step : γ → Rendering Unit} {step' : γ → Telling Unit} {xs : List γ}
    (h : ∀ x ∈ xs, Isolated i v (step x) (step' x)) : Isolated i v (xs.forM step) (xs.forM step') := by
  induction xs with
  | nil => exact nothing
  | cons x xs ih =>
      show Isolated i v (step x >>= fun _ => xs.forM step) (step' x >>= fun _ => xs.forM step')
      exact (h x (by simp)).seq (ih fun y mem => h y (by simp [mem]))

end Isolated

/-! ## Bindings -/

namespace Instance

variable {i : Instance} {v : View}

theorem isolated_apply {b : BoundBinding} (mem : b ∈ i.bindings) (admissible : b.handler.Admissible)
    (value : Value) : Isolated i v (b.apply value) (b.tell value) := by
  intro d sound settled _
  rcases settled.call sound mem admissible value with ⟨d', run, upheld⟩ | ⟨e, run, other⟩ |
    ⟨x, d', run, upheld⟩
  · exact ⟨d', _, upheld, .inl (.call run)⟩
  · exact ⟨d, _, .refl sound settled, .inl (.refused run other)⟩
  · exact ⟨d', _, upheld, .inr ⟨x, .call run⟩⟩

theorem isolated_bindings (admissible : ∀ b ∈ i.bindings, b.handler.Admissible) (scope : Scope) :
    Isolated i v (Rendering.means.writeBindings i scope) (Telling.means.writeBindings i scope) := by
  refine .forM fun entry mem => ?_
  show Isolated i v (Rendering.means.writeKey scope entry.1 entry.2)
    (Telling.means.writeKey scope entry.1 entry.2)
  rw [Means.writeKey, Means.writeKey]
  cases scope.resolve? entry.1 with
  | none => exact .nothing
  | some value =>
      refine .forM fun b listed => ?_
      have own : b ∈ i.bindings := List.mem_flatMap.2 ⟨entry, mem, listed⟩
      exact isolated_apply own (admissible b own) value

end Instance

/-! ## Regions -/

namespace Pattern

variable {env : Environment} {i : Instance} {v : View} {g : NodeId}

/-- A pattern with bare parts outside of a document's trees can be copied. -/
theorem exists_instantiate {p : Pattern} {d : Document} (known : p.Known env)
    (wired : p.bare.Wired v) (keeps : ∀ {x n}, v x = some n → d.view x = some n)
    (sound : d.Sound) :
    ∃ q d', env.instantiate p d = .ok q d' ∧ q.bare.New d.lenient d'.lenient ∧
      ∀ b ∈ q.bindings, b.Found env := by
  have enough : p.compiled.slots.flatten.countP Reference.isTemplate ≤ p.parts.length := by
    obtain ⟨compiled, prototype, parts⟩ := p
    obtain ⟨-, -, enough, -⟩ := wired
    rwa [CompiledTemplate.slots_bare, CompiledTemplate.countP_bareSlots, bareAll_eq_map,
      List.length_map] at enough
  obtain ⟨i, e, made, new, -⟩ := env.bare.instantiate_new (d := d.lenient) rfl wired keeps sound.steady
  rw [env.bare.instantiate_eq (sound_lenient.2 sound)] at made
  obtain ⟨q, d', own, rfl, rfl⟩ := (Environment.duplicate_mirrors known enough).of_ok made
  rw [← env.instantiate_eq sound] at own
  exact ⟨q, d', own, new, (Environment.instantiate_bare sound known own).2⟩

/-- A new copy that has been written into is emptied into a node that was there before, and goes. -/
theorem exists_pour {q : Instance} {d d₁ d₂ : Document} {n : Node}
    (new : q.bare.New d.lenient d₁.lenient) (upheld : q.bare.Upheld d₁ d₂) (sound : d.Sound)
    (host : d.view g = some n) (container : n.data.isContainer = true) :
    ∃ d₃ d', moveChildren q.root g d₂ = .ok () d₃ ∧ release q.root d₃ = .ok () d' ∧
      Touched g d d' := by
  have sound₁ : d₁.Sound := sound_lenient.1 new.grown.steady.sound
  have kept : ∀ x k, d.view x = some k → d₁.view x = some k := new.kept
  -- The node is old and so outside of the copy, which is a root all the time.
  have out : ¬Inside [q.root] d₁.view g := fun inside =>
    new.grown.not_below_new sound.steady new.fresh host (inside_singleton.1 inside)
  have host₂ : d₂.view g = some n := upheld.spared (kept g n host) out
  have apart : ¬d₂.view.Above q.root g := mt inside_singleton.2
    (upheld.spared.not_inside sound₁.forest (kept g n host) out)
  obtain ⟨k, root₁, parentless⟩ := new.root
  obtain ⟨k', m, top, root₂, parent⟩ := upheld.root
  rw [show d₁.view q.bare.root = some k from root₁] at top
  cases top
  obtain ⟨e₃, e, moved, released, steady', confined, -, ⟨l, host', data, parent'⟩, -⟩ :=
    moveChildren_release upheld.sound.steady host₂ container root₂ (parent.trans parentless) apart
  obtain ⟨_, d₃, moved', -, rfl⟩ := (Blind.moveChildren q.root g).of_ok moved
  obtain ⟨_, d', released', -, rfl⟩ := (Blind.release q.root).of_ok released
  refine ⟨d₃, d', moved', released', sound_lenient.1 steady'.sound, ?_, n, l, host, host', data,
    parent'⟩
  have copied : Spared [q.root, g] d.view d₁.view := .of_kept kept
  have written : Spared [q.root, g] d₁.view d₂.view := upheld.spared.mono (by simp [Instance.bare])
  have poured : Spared [q.root, g] d₂.view d'.view := confined.spared
  have whole : Spared [q.root, g] d.view d'.view :=
    (copied.trans sound.forest written).trans sound.forest poured
  exact whole.forget sound.forest new.fresh

/-- Rendering a pattern is isolated in any copy beside the prototypes of its parts. -/
def Isolates (env : Environment) (p : Pattern) : Prop :=
  ∀ (i : Instance) (v : View) (scope : Scope), WiredAll v (p.parts.map bare) →
    (∀ b ∈ i.bindings, b.Found env) → Isolated i v (p.render env scope i) (p.tell env scope i)

/-- One more item: a copy is made, rendered into, emptied into the container and given up. -/
theorem isolated_item {part : Pattern} (known : part.Known env) (wired : part.bare.Wired v)
    (isolates : part.Isolates env) (fills : i.Fills g) (scope : Scope) :
    Isolated i v
      (Rendering.means.addCopy env g part fun copy => part.render env scope copy)
      (Telling.means.addCopy env g part fun copy => part.tell env scope copy) := by
  intro d sound settled beside
  have keeps : ∀ {x n}, v x = some n → d.view x = some n := fun node => (beside node).1
  obtain ⟨q, d₁, made, new, found⟩ := exists_instantiate known wired keeps sound
  have sound₁ : d₁.Sound := sound_lenient.1 new.grown.steady.sound
  have kept : ∀ x k, d.view x = some k → d₁.view x = some k := new.kept
  have beside₁ : v.Beside q.root d₁.view := fun x k node =>
    ⟨kept x k (keeps node), new.grown.not_below_new sound.steady new.fresh (keeps node)⟩
  have parts : WiredAll v (part.parts.map bare) := by
    have inner := wired.parts
    rwa [parts_bare] at inner
  obtain ⟨d₂, deeds, upheld, outcome⟩ := isolates q v scope parts found d₁ sound₁ new.settled beside₁
  obtain ⟨n, host, element⟩ := settled.element g (Instance.hosts_bare.2 fills.hosts)
  rcases outcome with performs | ⟨e, aborts⟩
  · obtain ⟨d₃, d', moved, released, touched⟩ :=
      exists_pour new upheld sound host (isContainer_of_isElement element)
    have poured := performs.seq ((Performs.edit moved).seq (Performs.edit released))
    exact ⟨d', _, settled.touched sound (Instance.fills_bare.2 fills) touched,
      .inl (Performs.build made poured)⟩
  · -- The copy stays behind, beside all that was there.
    have spared : Spared [] d.view d₂.view := by
      have copied : Spared [q.root] d.view d₁.view := .of_kept kept
      exact (copied.trans sound.forest upheld.spared).forget sound.forest new.fresh
    refine ⟨d₂, deeds, settled.kept sound upheld.sound (fun x k node => spared node (by simp [Inside])),
      .inr ⟨e, .build made (aborts.seq _ _)⟩⟩

/-- A region is emptied. -/
theorem isolated_discard (fills : i.Fills g) :
    Isolated i v (Rendering.means.edit (discardChildren g))
      (Telling.means.edit (discardChildren g)) := by
  intro d sound settled _
  obtain ⟨n, host, -⟩ := settled.element g (Instance.hosts_bare.2 fills.hosts)
  obtain ⟨d', run, touched⟩ := discardChildren_touched sound host
  exact ⟨d', [], settled.touched sound (Instance.fills_bare.2 fills) touched, .inl (.edit run)⟩

/-- A region is isolated, if each of its items is. -/
theorem isolated_region {region : Region} (fills : i.Fills region.container) (value : Option Value)
    {add : Value → Rendering Unit} {add' : Value → Telling Unit}
    (each : ∀ item, Isolated i v (add item) (add' item)) :
    Isolated i v (Rendering.means.writeRegion region value add)
      (Telling.means.writeRegion region value add') := by
  unfold Means.writeRegion
  refine (Isolated.come region value).seq ?_
  cases value with
  | none => exact .nothing
  | some value =>
      cases value with
      | null => exact isolated_discard fills
      | array items => exact (isolated_discard fills).seq (.forM fun item _ => each item)
      | _ => exact .nothing

theorem isolated_regions (scope : Scope) {parts : List Pattern}
    (known : ∀ part ∈ parts, part.Known env) (wired : WiredAll v (parts.map bare))
    (isolates : ∀ part ∈ parts, part.Isolates env) {regions : List Region}
    (own : ∀ r ∈ regions, r ∈ i.regions) :
    Isolated i v (Rendering.means.writeRegions env scope regions parts)
      (Telling.means.writeRegions env scope regions parts) := by
  induction parts generalizing regions with
  | nil =>
      rw [Means.writeRegions, Means.writeRegions]
      exact .nothing
  | cons part parts ih =>
      cases regions with
      | nil =>
          rw [Means.writeRegions, Means.writeRegions]
          exact .nothing
      | cons region regions =>
          have fills : i.Fills region.container := .inr ⟨region, own region (by simp), rfl⟩
          rw [Means.writeRegions, Means.writeRegions]
          refine (isolated_region fills _ fun item => ?_).seq (ih (fun p mem => known p (by simp [mem]))
            wired.2 (fun p mem => isolates p (by simp [mem])) fun r mem => own r (by simp [mem]))
          exact isolated_item (known part (by simp)) wired.1 (isolates part (by simp)) fills _

mutual

theorem isolates (handlers : env.handlers.Admissible) : (p : Pattern) → p.Known env → p.Isolates env
  | ⟨compiled, prototype, parts⟩, known => fun i v scope wired found => by
      rw [render, tell, Means.write, Means.write]
      refine Isolated.seq (i.isolated_bindings (fun b mem => handlers _ _ (found b mem)) scope) ?_
      exact isolated_regions scope known.parts wired (isolates_all handlers parts known.parts)
        fun _ mem => mem

theorem isolates_all (handlers : env.handlers.Admissible) : (ps : List Pattern) →
    (∀ p ∈ ps, p.Known env) → ∀ p ∈ ps, p.Isolates env
  | [], _ => List.forall_mem_nil _
  | p :: ps, known => List.forall_mem_cons.2
      ⟨isolates handlers p (known p (by simp)),
        isolates_all handlers ps fun q mem => known q (by simp [mem])⟩

end

end Pattern

end Stencil
