import Stencil.Proofs.Render.Drawing
import Stencil.Proofs.Render.Staging

/-! # What has been rendered into templates

Templates of any number are made in a document and rendered into. Each reflects what has been
rendered into it: the document shows, at its root, what the scripts of these contexts draw on
its mold, whatever has happened to the other templates.
-/

namespace Stencil

open Markup NodeTree Document Edit View

/-! ## Templates and molds -/

/-- What contexts that are rendered one after the other do. -/
def Mold.script (m : Mold) (past : List Value) : List Stroke :=
  past.flatMap fun context => m.strokes (.ofContext context)

theorem Mold.script_append (m : Mold) (past : List Value) (context : Value) :
    m.script (past ++ [context]) = m.script past ++ m.strokes (.ofContext context) := by
  rw [script, List.flatMap_append, List.flatMap_singleton]
  rfl

/-- A template is a copy in a mold, and the document shows what a script draws on it. -/
structure Template.Reflects (t : Template) (d : Document) (m : Mold) (script : List Stroke) :
    Prop where
  cast : t.pattern.Cast t.environment.keepMarkers d.view m
  copy : ∃ f, t.live = m.live.map f ∧ m.live.Apart f ∧
    (∀ b ∈ m.live.bindings, Registry.standard.get? b.binding.kind.tag = some b.handler) ∧
    m.live.Shows f d (m.sketch.draw script)

namespace Template.Reflects

variable {t : Template} {d d' : Document} {m : Mold} {f : NodeId → NodeId} {script : List Stroke}

/-- A copy that has just been cast. -/
theorem of_cast (cast : t.pattern.Cast t.environment.keepMarkers d.view m)
    (live : t.live = m.live.map f) (made : m.Cast f d) : t.Reflects d m [] :=
  ⟨cast, f, live, made.apart, made.standard, made.shows⟩

/-- What a template reflects depends on its pattern and its tree. -/
theorem congr (h : t.Reflects d m script)
    (cast : t.pattern.Cast t.environment.keepMarkers d'.view m)
    (same : ∀ T, d.tree t.live.root = .ok T → d'.tree t.live.root = .ok T) :
    t.Reflects d' m script := by
  obtain ⟨f, live, apart, standard, T, read, shows⟩ := h.copy
  have root : t.live.root = f m.live.root := by
    rw [live]
    rfl
  exact ⟨cast, f, live, apart, standard, T, root ▸ same T (root ▸ read), shows⟩

end Template.Reflects

/-- Where nothing can be written the script is empty. -/
theorem Mold.strokes_idle {m : Mold} {f : NodeId → NodeId} (idle : (m.live.map f).Idle)
    (scope : Scope) : m.strokes scope = [] := by
  obtain ⟨bindings, regions⟩ := idle
  have flat : m.live.regions = [] := List.map_eq_nil_iff.1 regions
  have keys : m.live.keys = [] := by
    rw [← m.live.keys_map f, Instance.keys, bindings]
    rfl
  rw [strokes_eq, Instance.strokes, keys, flat]
  cases m.parts <;> (rw [regionStrokes]; rfl)

namespace Held

variable {d d' : Document} {ts : List Template} {tops hosts : List NodeId} {s t : Template}
  {m : Mold} {script : List Stroke} {T : NodeTree NodeId} {keep : Bool}

/-- Patterns are cast outside of all that can be written into. -/
theorem cast_outside (h : Held d ts tops) (mem : t ∈ ts) (cast : t.pattern.Cast keep d.view m) :
    t.pattern.Cast keep (outside tops d.view) m :=
  Pattern.Cast.restrict (fun node => (outside_eq_some.1 node).1) _ _ (h.wired t mem) cast

theorem cast_grown (h : Held d ts tops) (mem : t ∈ ts) (grown : Grown hosts d d')
    (inside : ∀ x ∈ hosts, Inside tops d.view x) (cast : t.pattern.Cast keep d.view m) :
    t.pattern.Cast keep d'.view m :=
  Pattern.Cast.mono (fun node => (outside_eq_some.1 (grown.outside h.steady inside node)).1) _ _
    (h.cast_outside mem cast)

theorem cast_confined (h : Held d ts tops) (mem : t ∈ ts) (confined : Confined tops d.view d'.view)
    (cast : t.pattern.Cast keep d.view m) : t.pattern.Cast keep d'.view m := by
  have out := h.cast_outside mem cast
  rw [← confined] at out
  exact Pattern.Cast.mono (fun node => (outside_eq_some.1 node).1) _ _ out

/-- A tree that is apart from all that changes stays as it is. -/
theorem tree_grown (h : Held d ts tops) (grown : Grown hosts d d')
    (out : ∀ x ∈ hosts, ¬d.view.Above t.live.root x) (read : d.tree t.live.root = .ok T) :
    d'.tree t.live.root = .ok T :=
  tree_congr h.steady.forest read fun x _ below there =>
    grown.others (fun mem => out x mem below) there

/-- New nodes change nothing of what a template reflects. -/
theorem reflects_grown (h : Held d ts tops) (mem : t ∈ ts) (grown : Grown [] d d')
    (reflects : t.Reflects d m script) : t.Reflects d' m script :=
  reflects.congr (h.cast_grown mem grown (by simp) reflects.cast) fun _ read =>
    h.tree_grown grown (by simp) read

/-- Rendering one template changes nothing of what another reflects. -/
theorem reflects_other (h : Held d ts tops) (left : s ∈ ts) (right : t ∈ ts) (other : s ≠ t)
    (confined : Confined [t.live.root] d.view d'.view) (top : t.live.root ∈ tops ∨ d' = d)
    (reflects : s.Reflects d m script) : s.Reflects d' m script := by
  rcases top with top | rfl
  · exact reflects.congr
      (h.cast_confined left (confined.mono (by simpa using top)) reflects.cast) fun T read =>
        tree_congr h.steady.forest read fun x n below there =>
          (confined.node there (h.not_inside left right other below)).1
  · exact reflects

/-- Trees of different templates are apart, so no template is held twice. -/
theorem ne_of_mem {us : List Template} (h : Held d (us ++ t :: ts) tops) :
    ∀ s ∈ us ++ ts, s ≠ t := by
  have apart := h.apart
  rw [List.pairwise_append, List.pairwise_cons] at apart
  obtain ⟨-, ⟨right, -⟩, left⟩ := apart
  rintro s mem rfl
  rcases List.mem_append.1 mem with mem | mem
  · exact (left s mem s (List.mem_cons_self ..)).1 .self
  · exact (right s mem).1 .self

/-- A template can be copied, in both ways alike, and the copy reflects nothing yet. -/
theorem copy (h : Held d ts tops) (mem : t ∈ ts) (reflects : t.Reflects d m script) :
    ∃ s d', t.clone d = .ok s d' ∧ t.cloneSub d = .ok s d' ∧ s.environment = t.environment ∧
      Grown [] d d' ∧ Held d' (s :: ts) (s.live.root :: tops) ∧ s.Reflects d' m [] := by
  have inside : ∀ {x n}, outside tops d.view x = some n → d.view x = some n := fun node =>
    (outside_eq_some.1 node).1
  obtain ⟨f, d', made, shown, new, -⟩ := t.environment.instantiate_cast (h.standard t mem)
    (h.wired t mem) (h.cast_outside mem reflects.cast) inside h.steady
  have run : t.clone d = .ok { t with live := m.live.map f } d' := bind_ok made
  refine ⟨{ t with live := m.live.map f }, d', run,
    (Template.cloneSub_eq (h.wired t mem) inside h.steady.sound).trans run, rfl, new.grown, ?_, ?_⟩
  · exact h.add_new new (h.standard t mem)
      ((h.wired t mem).mono (new.outside h.steady) _)
  · exact .of_cast (h.cast_grown (t := t) mem new.grown (by simp) reflects.cast) rfl shown

/-- Rendering a context draws its script. -/
theorem draw (h : Held d ts tops) (mem : t ∈ ts) (reflects : t.Reflects d m script)
    (context : Value) :
    ∃ d' events, Rendering.run (t.render context) d = (.ok t.live.root, d', events) ∧
      t.Reflects d' m (script ++ m.strokes (.ofContext context)) ∧
      events.filterMap Event.entry? = reports (m.strokes (.ofContext context)) := by
  obtain ⟨f, live, apart, standard, shows⟩ := reflects.copy
  rcases h.active t mem with top | idle
  · have narrow : ∀ {x n}, outside tops d.view x = some n →
        outside [t.live.root] d.view x = some n := outside_subset (by simpa using top)
    have root : t.live.root = f m.live.root := by
      rw [live]
      rfl
    obtain ⟨c, run, written, drawing, entries⟩ :=
      Pattern.drawn (h.standard t mem) t.pattern m f (outside [t.live.root] d.view)
        (.ofContext context) (Pattern.WiredAll.mono narrow _ (h.wired t mem).parts)
        (Pattern.CastAll.mono narrow _ _ (h.cast_outside mem reflects.cast).parts) apart standard
        { document := d } _ h.steady (live ▸ h.settled t mem) (root ▸ rfl) shows
    rw [← live] at run written
    refine ⟨_, _, Template.run_render run, ⟨?_, f, live, apart, standard, ?_⟩, entries⟩
    · exact h.cast_confined mem (written.confined.mono (by simpa using top)) reflects.cast
    · rw [Sketch.draw_append]
      exact drawing
  · have silent := Mold.strokes_idle (live ▸ idle) (.ofContext context)
    refine ⟨d, _, Template.run_render (congrFun (idle.write _ _ _ _) _), ?_, ?_⟩
    · rw [silent, List.append_nil]
      exact reflects
    · rw [silent]
      rfl

end Held

/-! ## Chronicles -/

namespace Chronicle

variable {d d' : Document} {es : List Member} {e : Member} {c : CompiledTemplate}

/-- The templates of a chronicle are at a stage. -/
theorem stage (h : Chronicle .standard d es) : Stage d (es.map Member.template) := ⟨es, h, rfl⟩

/-- What is kept for each member: the template reflects its past, in the mold of its source. -/
def Keeps (d : Document) (e : Member) : Prop :=
  ∃ m, e.template.Reflects d m (m.script e.past) ∧
    ∀ c, e.source = some c → c.Tidy ∧ m = c.mold e.template.environment.keepMarkers

/-- New nodes change nothing of what is kept. -/
theorem keeps_grown (h : Chronicle .standard d es) (grown : Grown [] d d') (kept : ∀ e ∈ es, Keeps d e) :
    ∀ e ∈ es, Keeps d' e := by
  intro e mem
  obtain ⟨tops, held, -⟩ := h.stage.held
  obtain ⟨m, reflects, source⟩ := kept e mem
  exact ⟨m, held.reflects_grown (List.mem_map_of_mem mem) grown reflects, source⟩

/-- Hosts in a tree that is taken get their slots: what is kept for the others stays. -/
theorem keeps_taken (h : Chronicle .standard d es) {hosts : List NodeId} {r : NodeId} {n : Node}
    (node : d.view r = some n) (grown : Grown hosts d d') (below : ∀ x ∈ hosts, d.view.Above r x)
    (fragment : n.data = .fragment → hosts = [])
    (apart : ∀ e ∈ es, ¬d.view.Above e.template.live.root r ∧
      ¬d.view.Above r e.template.live.root ∧
      ∀ x ∈ e.template.pattern.prototypes, ¬d.view.Above x r)
    (kept : ∀ e ∈ es, Keeps d e) : ∀ e ∈ es, Keeps d' e := by
  by_cases solid : n.data = .fragment
  · cases fragment solid
    exact h.keeps_grown grown kept
  · intro e mem
    obtain ⟨tops, held, -⟩ := h.stage.held
    have listed : e.template ∈ es.map Member.template := List.mem_map_of_mem mem
    have wide : Held d (es.map Member.template) (r :: tops) := held.widen <|
      List.forall_mem_map.2 fun s other =>
        (held.wired _ (List.mem_map_of_mem other)).avoid node solid held.steady.forest _
          (apart s other).2.2
    obtain ⟨m, reflects, source⟩ := kept e mem
    refine ⟨m, reflects.congr (wide.cast_grown listed grown
      (fun x inner => ⟨r, List.mem_cons_self .., below x inner⟩) reflects.cast) fun T read =>
      held.tree_grown grown (fun x inner above => ?_) read, source⟩
    exact (above.total (below x inner)).elim (apart e mem).1 (apart e mem).2.1

/-- A context that is rendered into one template adds its script there, and nothing elsewhere. -/
theorem keeps_rendered {front back : List Member} {context : Value}
    {result : Except TemplateError NodeId} {events : List Event}
    (h : Chronicle .standard d (front ++ e :: back))
    (run : Rendering.run (e.template.render context) d = (result, d', events))
    (kept : ∀ k ∈ front ++ e :: back, Keeps d k) :
    ∀ k ∈ front ++ { e with past := e.past ++ [context] } :: back, Keeps d' k := by
  obtain ⟨tops, held, -⟩ := h.stage.held
  have listed : e.template ∈ (front ++ e :: back).map Member.template :=
    List.mem_map_of_mem (by simp)
  obtain ⟨m, reflects, source⟩ := kept e (by simp)
  obtain ⟨d₁, events₁, drawing, drawn, -⟩ := held.draw listed reflects context
  obtain ⟨d₂, events₂, rendering, -, confined, top⟩ := held.render listed context
  rw [run] at drawing rendering
  cases drawing
  cases rendering
  have others : ∀ k ∈ front ++ back, Keeps d' k := by
    intro k mem
    have inside : k ∈ front ++ e :: back := by
      rw [List.mem_append, List.mem_cons]
      exact (List.mem_append.1 mem).imp_right .inr
    obtain ⟨m, reflects, source⟩ := kept k inside
    rw [List.map_append, List.map_cons] at held
    have ne := held.ne_of_mem k.template (by
      rw [← List.map_append]
      exact List.mem_map_of_mem mem)
    rw [← List.map_cons, ← List.map_append] at held
    exact ⟨m, held.reflects_other (List.mem_map_of_mem inside) listed ne confined top reflects,
      source⟩
  refine List.forall_mem_append.2 ⟨fun k mem => others k (List.mem_append_left _ mem),
    List.forall_mem_cons.2 ⟨⟨m, ?_, source⟩, fun k mem => others k (List.mem_append_right _ mem)⟩⟩
  rw [Mold.script_append]
  exact drawn

theorem keeps (h : Chronicle .standard d es) : ∀ e ∈ es, Keeps d e := by
  induction h with
  | start => exact List.forall_mem_nil _
  | grown h grown ih => exact h.keeps_grown grown ih
  | @built d d' es env c t h standard tidy run ih =>
      obtain ⟨tops, held, -⟩ := h.stage.held
      obtain ⟨made, rfl⟩ := Template.of_ofCompiled run
      obtain ⟨new, -⟩ := t.environment.materialize_new standard tidy made held.steady
      obtain ⟨cast, f, live, shown⟩ :=
        t.environment.materialize_cast standard tidy made held.steady
      refine List.forall_mem_cons.2 ⟨⟨_, .of_cast cast live shown, ?_⟩, h.keeps_grown new.grown ih⟩
      rintro _ ⟨⟩
      exact ⟨tidy, rfl⟩
  | @taken d d' es env c r t h standard apart inner tidy run ih =>
      obtain ⟨tops, held, -⟩ := h.stage.held
      obtain ⟨hosts, n, node, grown, below, -, -, -, -, fragment⟩ :=
        Template.ofNode_settled standard held.steady inner tidy run
      obtain ⟨m, f, cast, live, shown⟩ := Template.ofNode_cast standard held.steady inner run
      exact List.forall_mem_cons.2 ⟨⟨m, .of_cast cast live shown, nofun⟩,
        h.keeps_taken node grown below (fun solid => (fragment solid).1) apart ih⟩
  | @copied d d' es e t h mem run ih =>
      obtain ⟨tops, held, -⟩ := h.stage.held
      obtain ⟨m, reflects, source⟩ := ih e mem
      obtain ⟨s, d₁, first, second, environment, grown, -, fresh⟩ :=
        held.copy (List.mem_map_of_mem mem) reflects
      rw [first, second, or_self] at run
      injection run with same here
      subst same here
      exact List.forall_mem_cons.2 ⟨⟨m, fresh, environment ▸ source⟩, h.keeps_grown grown ih⟩
  | rendered h run ih => exact h.keeps_rendered run ih

/-- A chronicle of one template that has been built. -/
theorem of_built {env : Environment} {t : Template} (sound : d.Sound) (lenient : d.strict = false)
    (standard : env.handlers = .standard) (tidy : c.Tidy)
    (run : Template.ofCompiled env c d = .ok t d') : Chronicle .standard d' [⟨t, some c, []⟩] :=
  .built (.start ⟨sound, lenient⟩) standard tidy run

/-- A context is rendered into the only template. -/
theorem rendered_one {context : Value} {result : Except TemplateError NodeId} {events : List Event}
    (h : Chronicle .standard d [e]) (run : Rendering.run (e.template.render context) d = (result, d', events)) :
    Chronicle .standard d' [{ e with past := e.past ++ [context] }] :=
  @rendered _ d d' [] [] e context result events h run

end Chronicle

/-! ## Templates of one mold -/

/-- Templates in two documents are twins: they have the same keys, and at corresponding nodes the
same bindings and regions, in the same order; and whatever is rendered into both, the trees are the
same up to the numbers of nodes, and so are the reports. -/
structure Template.Twins (s : Template) (d : Document) (t : Template) (e : Document) : Prop where
  keys : s.live.keys = t.live.keys
  nodes : ∃ g T U, d.tree s.live.root = .ok T ∧ e.tree t.live.root = .ok U ∧ T.map g = U ∧
    s.live.map g = t.live
  render : ∀ context, ∃ d' e' happened happened' T U,
    Rendering.run (s.render context) d = (.ok s.live.root, d', happened) ∧
    Rendering.run (t.render context) e = (.ok t.live.root, e', happened') ∧
    d'.tree s.live.root = .ok T ∧ e'.tree t.live.root = .ok U ∧ T.shape = U.shape ∧
    happened.filterMap Event.entry? = happened'.filterMap Event.entry?

namespace Template.Reflects

variable {s t : Template} {d e : Document} {m : Mold} {script : List Stroke}

theorem exists_tree (h : t.Reflects d m script) :
    ∃ T, d.tree t.live.root = .ok T ∧ T.shape = (m.sketch.draw script).shape := by
  obtain ⟨f, live, -, -, T, read, shows⟩ := h.copy
  refine ⟨T, ?_, by rw [← shows, shape_map]⟩
  rw [live]
  exact read

/-- Copies of one mold that reflect one script are relabellings of each other. -/
theorem exists_map (h : s.Reflects d m script) (k : t.Reflects e m script)
    (forest : d.view.Forest) (forest' : e.view.Forest) (settled : s.live.Settled d.view) :
    ∃ g T U, d.tree s.live.root = .ok T ∧ e.tree t.live.root = .ok U ∧ T.map g = U ∧
      s.live.map g = t.live := by
  obtain ⟨f, live, apart, -, T, read, shows⟩ := h.copy
  obtain ⟨f', live', apart', -, U, read', shows'⟩ := k.copy
  obtain ⟨n, -, label, stands⟩ := stands_of_treeWithin forest _ _ T read
  obtain ⟨-, -, label', -⟩ := stands_of_treeWithin forest' _ _ U read'
  obtain ⟨g, same⟩ := NodeTree.exists_map (t := T) (s := U)
    (by rw [← shape_map (m.live.numbering f) T, shows, ← shows', shape_map])
    (forest.nodup_labels T _ stands)
  -- Corresponding nodes have the same number.
  have numbers : ∀ x ∈ T.labels, m.live.numbering f' (g x) = m.live.numbering f x := by
    rw [← same, map_map, ← shows] at shows'
    have labels := congrArg labels shows'
    rw [labels_map, labels_map] at labels
    exact List.map_inj_left.1 labels
  have root : g (f m.live.root) = f' m.live.root := by
    rw [← label, ← label', ← same, label_map]
  have carried : ∀ k ∈ m.live.places, g (f k) = f' k := by
    intro k mem
    have hosts : s.live.Hosts (f k) := live ▸ Instance.hosts_map.2 ⟨k, mem, rfl⟩
    have above := settled.inside _ hosts
    rw [live] at above
    have number := numbers (f k) (stands.mem_of_above forest (label ▸ above))
    rw [(Instance.numbering_eq_some apart).2 ⟨mem, rfl⟩] at number
    exact ((Instance.numbering_eq_some apart').1 number).2.symm
  refine ⟨g, T, U, by rw [live]; exact read, by rw [live']; exact read', same, ?_⟩
  rw [live, live']
  exact Instance.map_map_eq root carried

end Template.Reflects

namespace Chronicle

variable {d d' : Document} {es : List Member} {e : Member} {c : CompiledTemplate}

/-- Templates that have been built from one compiled template, or copied from such, are twins until
something is rendered into them. -/
theorem twins {e₁ : Document} {fs : List Member} {k : Member} (h : Chronicle .standard d es) (mem : e ∈ es)
    (h' : Chronicle .standard e₁ fs) (mem' : k ∈ fs) (source : e.source = some c) (source' : k.source = some c)
    (keep : e.template.environment.keepMarkers = k.template.environment.keepMarkers)
    (fresh : e.past = []) (fresh' : k.past = []) : e.template.Twins d k.template e₁ := by
  obtain ⟨tops, held, -⟩ := h.stage.held
  obtain ⟨tops', held', -⟩ := h'.stage.held
  have listed : e.template ∈ es.map Member.template := List.mem_map_of_mem mem
  have listed' : k.template ∈ fs.map Member.template := List.mem_map_of_mem mem'
  obtain ⟨m, reflects, mold⟩ := h.keeps e mem
  obtain ⟨m', reflects', mold'⟩ := h'.keeps k mem'
  obtain rfl : m' = m := by rw [(mold' c source').2, (mold c source).2, keep]
  rw [fresh] at reflects
  rw [fresh'] at reflects'
  obtain ⟨f, live, -⟩ := reflects.copy
  obtain ⟨f', live', -⟩ := reflects'.copy
  refine ⟨by rw [live, live', Instance.keys_map, Instance.keys_map],
    reflects.exists_map reflects' held.steady.forest held'.steady.forest (held.settled _ listed),
    fun context => ?_⟩
  obtain ⟨d', events, run, drawn, entries⟩ := held.draw listed reflects context
  obtain ⟨e', events', run', drawn', entries'⟩ := held'.draw listed' reflects' context
  obtain ⟨T, read, shape⟩ := drawn.exists_tree
  obtain ⟨U, read', shape'⟩ := drawn'.exists_tree
  exact ⟨d', e', events, events', T, U, run, run', read, read', shape.trans shape'.symm,
    entries.trans entries'.symm⟩

/-- Copies are as good as new: a template that goes back to a compiled one can be copied, in both
ways alike, whatever has been rendered into it and its copies. As long as nothing is rendered into
the copy it is a twin of any template that has just been built. -/
theorem copy_twins (h : Chronicle .standard d es) (mem : e ∈ es) (source : e.source = some c) :
    ∃ t d', e.template.clone d = .ok t d' ∧ e.template.cloneSub d = .ok t d' ∧
      Chronicle .standard d' (⟨t, some c, []⟩ :: es) ∧
      ∀ {d₂ : Document} {es₂ : List Member} {e₀ e₁ : Document} {fresh : Template},
        Chronicle .standard d₂ es₂ → ⟨t, some c, []⟩ ∈ es₂ → e₀.Sound → e₀.strict = false →
        Template.ofCompiled e.template.environment c e₀ = .ok fresh e₁ → t.Twins d₂ fresh e₁ := by
  have listed : e.template ∈ es.map Member.template := List.mem_map_of_mem mem
  obtain ⟨t, d', run, run', -⟩ := h.stage.exists_copy listed
  have later : Chronicle .standard d' (⟨t, some c, []⟩ :: es) := source ▸ .copied h mem (.inl run)
  refine ⟨t, d', run, run', later, fun {d₂ es₂ e₀ e₁ fresh} h₂ mem₂ sound lenient built => ?_⟩
  obtain ⟨tops, held, -⟩ := h.stage.held
  obtain ⟨m, -, origin⟩ := h.keeps e mem
  obtain ⟨-, environment, -⟩ := Template.of_clone run
  obtain ⟨-, environment'⟩ := Template.of_ofCompiled built
  have alone := of_built sound lenient (held.standard _ listed) (origin c source).1 built
  exact h₂.twins mem₂ alone (List.mem_singleton_self _) rfl rfl (by rw [environment, environment'])
    rfl rfl

/-- A list is built, a context rendered into it, and the list copied then. -/
theorem copy_twins_list :
    let context : Value := .object [("class", .string "a"), ("items", .array [.string "b", .null])]
    ∃ t d₁ d₂ events, Template.ofCompiled {} CompiledTemplate.sampleList { name := "page" } = .ok t d₁ ∧
      Rendering.run (t.render context) d₁ = (.ok t.live.root, d₂, events) ∧
      Chronicle .standard d₂ [⟨t, some CompiledTemplate.sampleList, [context]⟩] ∧
      ∃ s d', t.clone d₂ = .ok s d' ∧ t.cloneSub d₂ = .ok s d' ∧
        Chronicle .standard d' [⟨s, some CompiledTemplate.sampleList, []⟩,
          ⟨t, some CompiledTemplate.sampleList, [context]⟩] ∧
        ∀ {d₃ : Document} {es₃ : List Member} {e₀ e₁ : Document} {fresh : Template},
          Chronicle .standard d₃ es₃ → ⟨s, some CompiledTemplate.sampleList, []⟩ ∈ es₃ → e₀.Sound →
          e₀.strict = false →
          Template.ofCompiled t.environment CompiledTemplate.sampleList e₀ = .ok fresh e₁ →
          s.Twins d₃ fresh e₁ := by
  intro context
  have standard : ({} : Environment).handlers = .standard := rfl
  have ready : Ready { name := "page" } := ⟨accounted_empty "page" false, rfl⟩
  obtain ⟨t, d₁, -, -, -, built, -⟩ :=
    Template.render_of_ready standard CompiledTemplate.shaped_sampleList context ready
  have first : Chronicle .standard d₁ [⟨t, some CompiledTemplate.sampleList, []⟩] :=
    of_built (sound_empty "page" false) rfl standard CompiledTemplate.tidy_sampleList built
  obtain ⟨tops, held, -⟩ := first.stage.held
  obtain ⟨d₂, events, run, -⟩ := held.render (List.mem_singleton_self t) context
  have second : Chronicle .standard d₂ [⟨t, some CompiledTemplate.sampleList, [context]⟩] :=
    first.rendered_one run
  have copied := second.copy_twins (c := CompiledTemplate.sampleList) (List.mem_singleton_self _) rfl
  exact ⟨t, d₁, d₂, events, built, run, second, copied⟩

end Chronicle

end Stencil
