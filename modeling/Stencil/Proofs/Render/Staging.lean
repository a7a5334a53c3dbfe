import Mathlib.Data.List.Pairwise
import Stencil.Proofs.Render.Containment
import Stencil.Proofs.Render.Making
import Stencil.Proofs.Render.Refinement

/-! # Templates in one document

Any number of tidy templates are made in a document, by building, by taking a tree that is
there or by copying others, and rendered in any order. Each keeps to itself: rendering one of
them leaves every node outside of its tree as it was.
-/

namespace Stencil

open Markup NodeTree Document Edit View

/-! ## Documents with templates -/

/-- What is asked of the documents and of the environments in which templates are made. -/
structure Setting where
  /-- The documents at the start. -/
  opens : Document → Prop
  /-- What may come to a document apart from templates and renderings. -/
  grows : Document → Document → Prop
  /-- The environments of the templates. -/
  admits : Environment → Prop

/-- Lenient documents, to which nodes come beside what is there, and the built-in handlers. -/
def Setting.standard : Setting where
  opens d := d.Sound ∧ d.strict = false
  grows d d' := Grown [] d d'
  admits env := env.handlers = .standard

/-- A template in a document. -/
structure Member where
  template : Template
  /-- The compiled template that was built, unless a tree was taken. -/
  source : Option CompiledTemplate
  /-- The contexts that have been rendered into the template, in order. -/
  past : List Value

/-- A document in which templates have been made and rendered into, with any result, and which
only new nodes have changed apart from that. -/
inductive Chronicle (w : Setting) : Document → List Member → Prop where
  | start {d : Document} (opens : w.opens d) : Chronicle w d []
  /-- New nodes come. -/
  | grown {d d' : Document} {es : List Member} (h : Chronicle w d es) (grows : w.grows d d') :
      Chronicle w d' es
  /-- A compiled template is built. -/
  | built {d d' : Document} {es : List Member} {env : Environment} {c : CompiledTemplate}
      {t : Template} (h : Chronicle w d es) (admits : w.admits env) (tidy : c.Tidy)
      (run : Template.ofCompiled env c d = .ok t d') : Chronicle w d' (⟨t, some c, []⟩ :: es)
  /-- A compiled template takes a tree outside of the trees and prototypes of the others. -/
  | taken {d d' : Document} {es : List Member} {env : Environment} {c : CompiledTemplate}
      {r : NodeId} {t : Template} (h : Chronicle w d es) (admits : w.admits env)
      (apart : ∀ e ∈ es, ¬d.view.Above e.template.live.root r ∧
        ¬d.view.Above r e.template.live.root ∧
        ∀ x ∈ e.template.pattern.prototypes, ¬d.view.Above x r)
      (inner : CompiledTemplate.TidySlots c.slots) (tidy : ∀ T, d.tree r = .ok T → T.Tidy c.slots)
      (run : Template.ofNode env c r d = .ok t d') : Chronicle w d' (⟨t, none, []⟩ :: es)
  /-- A template is copied. -/
  | copied {d d' : Document} {es : List Member} {e : Member} {t : Template} (h : Chronicle w d es)
      (mem : e ∈ es) (run : e.template.clone d = .ok t d' ∨ e.template.cloneSub d = .ok t d') :
      Chronicle w d' (⟨t, e.source, []⟩ :: es)
  /-- A context is rendered into a template. -/
  | rendered {d d' : Document} {front back : List Member} {e : Member} {context : Value}
      {result : Except TemplateError NodeId} {events : List Event}
      (h : Chronicle w d (front ++ e :: back))
      (run : Rendering.run (e.template.render context) d = (result, d', events)) :
      Chronicle w d' (front ++ { e with past := e.past ++ [context] } :: back)

/-- A lenient document with templates that have the built-in handlers. -/
def Stage (d : Document) (ts : List Template) : Prop :=
  ∃ es, Chronicle .standard d es ∧ es.map Member.template = ts

/-! ## The invariant -/

/-- A copy into which nothing can be written. -/
def Instance.Idle (i : Instance) : Prop := i.bindings = .empty ∧ i.regions = []

/-- The live trees are settled and apart from each other, and the prototypes are outside of all
that can be written into, the trees at the tops. -/
structure Held (d : Document) (ts : List Template) (tops : List NodeId) : Prop where
  steady : d.Steady
  standard : ∀ t ∈ ts, t.environment.handlers = .standard
  settled : ∀ t ∈ ts, t.live.Settled d.view
  wired : ∀ t ∈ ts, t.pattern.Wired (outside tops d.view)
  apart : ts.Pairwise fun s t =>
    ¬d.view.Above s.live.root t.live.root ∧ ¬d.view.Above t.live.root s.live.root
  active : ∀ t ∈ ts, t.live.root ∈ tops ∨ t.live.Idle

/-- What is outside of some trees stays there when attributes inside change and new nodes come. -/
theorem Document.Grown.outside {d d' : Document} {hosts tops : List NodeId} (h : Grown hosts d d')
    (steady : d.Steady) (inside : ∀ x ∈ hosts, Inside tops d.view x) {x : NodeId} {n : Node}
    (node : View.outside tops d.view x = some n) : View.outside tops d'.view x = some n := by
  obtain ⟨there, out⟩ := outside_eq_some.1 node
  refine outside_eq_some.2 ⟨h.others (fun mem => out (inside x mem)) there, ?_⟩
  rintro ⟨a, mem, above⟩
  exact out ⟨a, mem, (h.above_iff steady there).1 above⟩

/-- A pattern that has come is outside of a tree that it is laid beside and of older ones. -/
theorem Pattern.Laid.wired {d d' : Document} {p : Pattern} {r : NodeId} {hosts tops : List NodeId}
    (h : p.Laid r d d') (steady : d.Steady) (grown : Grown hosts d d')
    (old : ∀ a ∈ tops, ∃ n, d.view a = some n) : p.Wired (outside (r :: tops) d'.view) := by
  obtain ⟨u, wired, added, below⟩ := h
  refine wired.mono (fun {x n} node => outside_eq_some.2 ⟨added.there node, ?_⟩) _
  rintro ⟨a, mem, above⟩
  rcases List.mem_cons.1 mem with rfl | mem
  · exact below node above
  · obtain ⟨m, there⟩ := old a mem
    exact grown.not_above_new steady there (added.fresh node) above

/-- Nothing is done on the way through such a copy. -/
theorem Instance.Idle.write {i : Instance} (h : i.Idle) {m : Type → Type} [Monad m] [LawfulMonad m]
    (w : Means m) (env : Environment) (scope : Scope) (p : Pattern) :
    w.write env scope i p = pure () := by
  obtain ⟨bindings, regions⟩ := h
  obtain ⟨compiled, prototype, parts⟩ := p
  have first : w.writeBindings i scope = pure () := by
    rw [Means.writeBindings, bindings]
    rfl
  have second : w.writeRegions env scope [] parts = pure () := by
    cases parts <;> rw [Means.writeRegions]
  rw [Means.write, first, regions, second, pure_bind]

theorem outside_subset {v : View} {tops more : List NodeId} (sub : tops ⊆ more) {x : NodeId} {n : Node}
    (node : View.outside more v x = some n) : View.outside tops v x = some n := by
  obtain ⟨there, out⟩ := outside_eq_some.1 node
  exact outside_eq_some.2 ⟨there, fun inside => out (inside.mono sub)⟩

/-- What is outside of some trees is outside of a new one as well. -/
theorem Instance.New.outside {d d' : Document} {i : Instance} {tops : List NodeId} (h : i.New d d')
    (steady : d.Steady) {x : NodeId} {n : Node} (node : View.outside tops d.view x = some n) :
    View.outside (i.root :: tops) d'.view x = some n := by
  obtain ⟨there, out⟩ := outside_eq_some.1 (h.grown.outside steady (by simp) node)
  refine outside_eq_some.2 ⟨there, ?_⟩
  rintro ⟨a, mem, above⟩
  rcases List.mem_cons.1 mem with rfl | mem
  · exact h.grown.not_below_new steady h.fresh (outside_eq_some.1 node).1 above
  · exact out ⟨a, mem, above⟩

/-- A rendering that succeeds gives the root of the live tree. -/
theorem Template.run_render {t : Template} {context : Value} {d : Document} {c : Canvas}
    (run : t.pattern.render t.environment (.ofContext context) t.live { document := d } = .ok () c) :
    Rendering.run (t.render context) d = (.ok t.live.root, c.document, c.history.reverse) := by
  have whole : t.render context { document := d } = .ok t.live.root c := bind_ok run
  rw [Rendering.run, whole]

/-- A rendering that fails. -/
theorem Template.run_render_error {t : Template} {context : Value} {d : Document} {c : Canvas}
    {e : TemplateError}
    (run : t.pattern.render t.environment (.ofContext context) t.live { document := d } =
      .error e c) :
    Rendering.run (t.render context) d = (.error e, c.document, c.history.reverse) := by
  have whole : t.render context { document := d } = .error e c := bind_error run
  rw [Rendering.run, whole]

namespace Held

variable {d d' : Document} {ts : List Template} {tops hosts : List NodeId} {s t : Template}
  {r x : NodeId} {n : Node}

theorem grown (h : Held d ts tops) (grown : Grown hosts d d')
    (inside : ∀ x ∈ hosts, Inside tops d.view x) : Held d' ts tops where
  steady := grown.steady
  standard := h.standard
  settled t mem := (h.settled t mem).grown h.steady grown
  wired t mem := (h.wired t mem).mono (grown.outside h.steady inside) _
  apart := by
    refine h.apart.imp_of_mem fun {s t} left right apart => ?_
    obtain ⟨n, node⟩ := (h.settled s left).root
    obtain ⟨m, node'⟩ := (h.settled t right).root
    rw [grown.above_iff h.steady node, grown.above_iff h.steady node']
    exact apart
  active := h.active

/-- One more top, outside of which the prototypes are. -/
theorem widen (h : Held d ts tops) (wired : ∀ t ∈ ts, t.pattern.Wired (outside (r :: tops) d.view)) :
    Held d ts (r :: tops) :=
  { h with
    wired := wired
    active := fun t mem => (h.active t mem).imp_left (List.mem_cons_of_mem r) }

theorem add (h : Held d ts tops) (standard : t.environment.handlers = .standard)
    (settled : t.live.Settled d.view) (wired : t.pattern.Wired (outside tops d.view))
    (apart : ∀ s ∈ ts, ¬d.view.Above t.live.root s.live.root ∧ ¬d.view.Above s.live.root t.live.root)
    (active : t.live.root ∈ tops ∨ t.live.Idle) : Held d (t :: ts) tops where
  steady := h.steady
  standard := List.forall_mem_cons.2 ⟨standard, h.standard⟩
  settled := List.forall_mem_cons.2 ⟨settled, h.settled⟩
  wired := List.forall_mem_cons.2 ⟨wired, h.wired⟩
  apart := List.pairwise_cons.2 ⟨apart, h.apart⟩
  active := List.forall_mem_cons.2 ⟨active, h.active⟩

/-- A template with a new live tree has come. -/
theorem add_new (h : Held d ts tops) (new : t.live.New d d')
    (standard : t.environment.handlers = .standard)
    (wired : t.pattern.Wired (outside (t.live.root :: tops) d'.view)) :
    Held d' (t :: ts) (t.live.root :: tops) := by
  refine ((h.grown new.grown (by simp)).widen fun s mem => (h.wired s mem).mono (new.outside h.steady) _).add standard
    new.settled wired (fun s mem => ?_) (.inl (List.mem_cons_self ..))
  obtain ⟨n, node⟩ := (h.settled s mem).root
  exact ⟨new.grown.not_below_new h.steady new.fresh node,
    new.grown.not_above_new h.steady node new.fresh⟩

/-- Two templates are one, or their trees are apart. -/
theorem eq_or_apart (h : Held d ts tops) (left : s ∈ ts) (right : t ∈ ts) :
    s = t ∨ ¬d.view.Above s.live.root t.live.root ∧ ¬d.view.Above t.live.root s.live.root := by
  have symm : Std.Symm fun s t : Template => s = t ∨
      ¬d.view.Above s.live.root t.live.root ∧ ¬d.view.Above t.live.root s.live.root :=
    ⟨fun _ _ => Or.imp Eq.symm And.symm⟩
  exact (h.apart.imp Or.inr).forall_of_forall (fun _ _ => .inl rfl) left right

/-- Nothing of one tree is in another. -/
theorem not_inside (h : Held d ts tops) (left : s ∈ ts) (right : t ∈ ts) (other : s ≠ t)
    (below : d.view.Above s.live.root x) : ¬Inside [t.live.root] d.view x := by
  intro inside
  obtain ⟨up, down⟩ := (h.eq_or_apart left right).resolve_left other
  exact (below.total (inside_singleton.1 inside)).elim up down

/-- What a rendering of one template leaves. -/
theorem written (h : Held d ts tops) (mem : t ∈ ts) (top : t.live.root ∈ tops)
    (written : t.live.Written d d') : Held d' ts tops := by
  obtain ⟨n, m, node, node', parent⟩ := written.root
  have above : ∀ a, ∀ s ∈ ts, d'.view.Above a s.live.root ↔ d.view.Above a s.live.root := by
    intro a s other
    rcases h.eq_or_apart other mem with rfl | ⟨-, apart⟩
    · exact written.confined.above_top h.steady.forest node node' parent
    · obtain ⟨k, there⟩ := (h.settled s other).root
      have out := mt inside_singleton.1 apart
      exact ⟨written.confined.symm.above (written.confined.node there out).2,
        written.confined.above out⟩
  refine ⟨written.steady, h.standard, fun s other => ?_, fun s other => ?_, ?_, h.active⟩
  · by_cases same : s = t
    · exact same ▸ written.settled
    · exact (h.settled s other).of_confined written.confined (h.not_inside other mem same .self)
        fun x host => h.not_inside other mem same ((h.settled s other).inside x host)
  · rw [written.confined.mono (by simpa using top)]
    exact h.wired s other
  · refine h.apart.imp_of_mem fun {s u} left right apart => ?_
    rw [above _ u right, above _ s left]
    exact apart

/-- A template is copied in both ways alike. -/
theorem cloneSub_eq (h : Held d ts tops) (mem : t ∈ ts) : t.cloneSub d = t.clone d :=
  Template.cloneSub_eq (h.wired t mem) (fun node => (outside_eq_some.1 node).1) h.steady.sound

/-- Rendering any context succeeds, and changes nothing outside of the live tree. -/
theorem render (h : Held d ts tops) (mem : t ∈ ts) (context : Value) :
    ∃ d' events, Rendering.run (t.render context) d = (.ok t.live.root, d', events) ∧
      Held d' ts tops ∧ Confined [t.live.root] d.view d'.view ∧
      (t.live.root ∈ tops ∨ d' = d) := by
  rcases h.active t mem with top | idle
  · have wired : Pattern.WiredAll (outside [t.live.root] d.view) t.pattern.parts :=
      Pattern.WiredAll.mono (outside_subset (by simpa using top)) _ (h.wired t mem).parts
    obtain ⟨c, run, written⟩ := Pattern.contained (h.standard t mem) t.pattern t.live _
      (.ofContext context) wired { document := d } h.steady (h.settled t mem) rfl
    exact ⟨c.document, _, Template.run_render run, h.written mem top written, written.confined, .inl top⟩
  · exact ⟨d, _, Template.run_render (congrFun (idle.write _ _ _ _) _), h, .refl .., .inr rfl⟩

end Held

/-- The invariant, with live trees at the tops. -/
def Gathered (d : Document) (ts : List Template) : Prop :=
  ∃ tops, Held d ts tops ∧ ∀ a ∈ tops, ∃ t ∈ ts, t.live.root = a

namespace Gathered

variable {d d' : Document} {ts : List Template} {tops : List NodeId} {env : Environment}
  {c : CompiledTemplate} {s t : Template} {r : NodeId}

theorem start (steady : d.Steady) : Gathered d [] :=
  ⟨[], ⟨steady, by simp, by simp, by simp, .nil, by simp⟩, by simp⟩

theorem grown (h : Gathered d ts) (grown : Grown [] d d') : Gathered d' ts := by
  obtain ⟨tops, held, own⟩ := h
  exact ⟨tops, held.grown grown (by simp), own⟩

/-- The trees at the tops are there. -/
theorem old (held : Held d ts tops) (own : ∀ a ∈ tops, ∃ t ∈ ts, t.live.root = a) :
    ∀ a ∈ tops, ∃ n, d.view a = some n := by
  intro a mem
  obtain ⟨t, listed, rfl⟩ := own a mem
  exact (held.settled t listed).root

theorem more (t : Template) (own : ∀ a ∈ tops, ∃ s ∈ ts, s.live.root = a) :
    ∀ a ∈ t.live.root :: tops, ∃ s ∈ t :: ts, s.live.root = a := by
  refine List.forall_mem_cons.2 ⟨⟨t, by simp⟩, fun a mem => ?_⟩
  obtain ⟨s, listed, same⟩ := own a mem
  exact ⟨s, by simp [listed], same⟩

theorem built (h : Gathered d ts) (standard : env.handlers = .standard) (tidy : c.Tidy)
    (run : Template.ofCompiled env c d = .ok t d') : Gathered d' (t :: ts) := by
  obtain ⟨tops, held, own⟩ := h
  obtain ⟨made, rfl⟩ := Template.of_ofCompiled run
  obtain ⟨new, laid⟩ := t.environment.materialize_new standard tidy made held.steady
  exact ⟨_, held.add_new new standard (laid.wired held.steady new.grown (old held own)), more t own⟩

theorem taken (h : Gathered d ts) (standard : env.handlers = .standard)
    (apart : ∀ s ∈ ts, ¬d.view.Above s.live.root r ∧ ¬d.view.Above r s.live.root ∧
      ∀ x ∈ s.pattern.prototypes, ¬d.view.Above x r)
    (inner : CompiledTemplate.TidySlots c.slots) (tidy : ∀ T, d.tree r = .ok T → T.Tidy c.slots)
    (run : Template.ofNode env c r d = .ok t d') : Gathered d' (t :: ts) := by
  obtain ⟨tops, held, own⟩ := h
  obtain ⟨hosts, n, node, grown, below, rfl, rfl, settled, laid, idle⟩ :=
    Template.ofNode_settled standard held.steady inner tidy run
  have wired := laid.wired held.steady grown (old held own)
  have others : ∀ s ∈ ts, ¬d'.view.Above t.live.root s.live.root ∧
      ¬d'.view.Above s.live.root t.live.root := by
    intro s mem
    obtain ⟨k, there⟩ := (held.settled s mem).root
    rw [grown.above_iff held.steady there, grown.above_iff held.steady node]
    exact ⟨(apart s mem).2.1, (apart s mem).1⟩
  by_cases fragment : n.data = .fragment
  · obtain ⟨rfl, empty⟩ := idle fragment
    refine ⟨tops, (held.grown grown (by simp)).add standard settled
      (wired.mono (outside_subset (List.subset_cons_self _ _)) _) others (.inr empty),
      fun a mem => more t own a (List.mem_cons_of_mem _ mem)⟩
  · have wide := held.widen fun s mem =>
      (held.wired s mem).avoid node fragment held.steady.forest _ (apart s mem).2.2
    exact ⟨_, (wide.grown grown fun x mem => ⟨_, List.mem_cons_self .., below x mem⟩).add standard
      settled wired others (.inl (List.mem_cons_self ..)), more t own⟩

theorem copied (h : Gathered d ts) (mem : s ∈ ts) (run : s.clone d = .ok t d') :
    Gathered d' (t :: ts) := by
  obtain ⟨tops, held, own⟩ := h
  obtain ⟨made, environment, pattern⟩ := Template.of_clone run
  have standard := held.standard s mem
  obtain ⟨i, e, again, new, -⟩ := s.environment.instantiate_new standard (held.wired s mem)
    (fun node => (outside_eq_some.1 node).1) held.steady
  rw [made] at again
  cases again
  refine ⟨_, held.add_new new (environment ▸ standard) ?_, more t own⟩
  rw [pattern]
  exact (held.wired s mem).mono (new.outside held.steady) _

end Gathered

theorem CompiledTemplate.tidy_sampleList : sampleList.Tidy := by
  refine ⟨fun t tree => ?_, ⟨trivial, ⟨fun t tree => ?_, ⟨trivial, trivial⟩, trivial⟩, trivial⟩, trivial⟩
  · cases tree.symm.trans treeOf?_sampleList
    exact tidy_of_childless rfl _
  · cases tree.symm.trans treeOf?_sampleItem
    intro pair mem r _ _
    cases List.mem_singleton.1 mem
    rfl

/-- The invariant holds all the time. -/
theorem Chronicle.gathered {d : Document} {es : List Member} (h : Chronicle .standard d es) :
    Gathered d (es.map Member.template) := by
  induction h with
  | start opens => exact .start ⟨opens.1, opens.2⟩
  | grown _ grows ih => exact ih.grown grows
  | built _ standard tidy run ih => exact ih.built standard tidy run
  | taken _ standard apart inner tidy run ih =>
      exact ih.taken standard (List.forall_mem_map.2 apart) inner tidy run
  | @copied d d' es e t _ mem run ih =>
      obtain ⟨tops, held, own⟩ := ih
      have listed : e.template ∈ es.map Member.template := List.mem_map_of_mem mem
      rw [held.cloneSub_eq listed, or_self] at run
      exact Gathered.copied ⟨tops, held, own⟩ listed run
  | @rendered d d' front back e context result events _ run ih =>
      obtain ⟨tops, held, own⟩ := ih
      rw [List.map_append, List.map_cons] at held own ⊢
      obtain ⟨_, _, again, held', -⟩ :=
        held.render (List.mem_append_right _ (List.mem_cons_self ..)) context
      rw [again] at run
      cases run
      exact ⟨tops, held', own⟩

namespace Stage

open CompiledTemplate

variable {d d' : Document} {ts : List Template} {t : Template}

theorem held (h : Stage d ts) : Gathered d ts := by
  obtain ⟨es, chronicle, rfl⟩ := h
  exact chronicle.gathered

/-- A template can be copied at any stage, in both ways alike. -/
theorem exists_copy (h : Stage d ts) (mem : t ∈ ts) :
    ∃ s d', t.clone d = .ok s d' ∧ t.cloneSub d = .ok s d' ∧ Stage d' (s :: ts) := by
  obtain ⟨tops, held, -⟩ := h.held
  have keeps : ∀ {x n}, outside tops d.view x = some n → d.view x = some n := fun node =>
    (outside_eq_some.1 node).1
  obtain ⟨i, d', made, -⟩ := t.environment.instantiate_new (held.standard t mem) (held.wired t mem)
    keeps held.steady
  have run : t.clone d = .ok { t with live := i } d' := bind_ok made
  obtain ⟨es, chronicle, rfl⟩ := h
  obtain ⟨e, listed, rfl⟩ := List.mem_map.1 mem
  exact ⟨_, d', run, (held.cloneSub_eq mem).trans run, _, .copied chronicle listed (.inl run), rfl⟩

/-- Rendering a template stays inside: it succeeds, and the nodes outside of its tree are the
same afterwards, each with all that it holds. No other live tree and no prototype changes. -/
theorem render_confined (h : Stage d ts) (mem : t ∈ ts) (context : Value) :
    ∃ d' events, Rendering.run (t.render context) d = (.ok t.live.root, d', events) ∧
      (∀ x n, d'.view x = some n ∧ ¬d'.view.Above t.live.root x ↔
        d.view x = some n ∧ ¬d.view.Above t.live.root x) ∧
      (∀ s ∈ ts, s ≠ t → d'.tree s.live.root = d.tree s.live.root) ∧
      ∀ s ∈ ts, ∀ x ∈ s.pattern.prototypes, d'.tree x = d.tree x := by
  obtain ⟨tops, held, -⟩ := h.held
  obtain ⟨d', events, run, held', confined, top⟩ := held.render mem context
  refine ⟨d', events, run, fun x n => ?_, fun s other ne => ?_, fun s other x listed => ?_⟩
  · rw [← inside_singleton, ← inside_singleton, ← outside_eq_some, ← outside_eq_some, confined]
  · obtain ⟨n, node⟩ := (held.settled s other).root
    obtain ⟨T, read, label, stands⟩ := exists_tree held.steady.forest node
    have still : d'.view.Stands n.parent T := stands.congr fun x listed => by
      obtain ⟨m, there⟩ := Option.ne_none_iff_exists'.1 (stands.live listed)
      have out := held.not_inside other mem ne (label ▸ stands.above listed)
      rw [there, (confined.node there out).1]
    rw [read, ← label]
    exact tree_of_stands still (held.steady.forest.nodup_labels T _ stands)
  · rcases top with top | rfl
    · obtain ⟨q, P, stands, rfl⟩ := (held.wired s other).stand _ x listed
      have before : d.view.Stands q P := stands.mono fun _ _ node => (outside_eq_some.1 node).1
      have after : d'.view.Stands q P := by
        have wide : Confined tops d.view d'.view := confined.mono (by simpa using top)
        rw [← wide] at stands
        exact stands.mono fun _ _ node => (outside_eq_some.1 node).1
      have nodup := held.steady.forest.nodup_labels P _ before
      rw [tree_of_stands before nodup, tree_of_stands after nodup]
    · rfl

/-- What has been built beside a tree leaves the tree as it is. -/
theorem tree_of_built {env : Environment} {c : CompiledTemplate} {s : Template}
    (standard : env.handlers = .standard) (tidy : c.Tidy)
    (run : Template.ofCompiled env c d = .ok s d') (steady : d.Steady) {x : NodeId}
    {T : NodeTree NodeId} (read : d.tree x = .ok T) : d'.tree x = .ok T := by
  obtain ⟨made, -⟩ := Template.of_ofCompiled run
  obtain ⟨new, -⟩ := env.materialize_new standard tidy made steady
  obtain ⟨n, -, rfl, stands⟩ := stands_of_treeWithin steady.forest _ x _ read
  exact tree_of_stands (stands.mono new.kept) (steady.forest.nodup_labels T _ stands)

/-- Of two lists in a document one has a class and two items; the other is rendered with one item,
and gets a class and an entry, while the first is as it was. -/
theorem render_confined_list :
    let first : NodeTree Unit := .node () (.element "ul" [("class", .string "a")]) [
      .node () (.element "li" []) [.node () (.text "b") []],
      .node () (.element "li" []) [.node () (.text "") []]]
    let second : NodeTree Unit := .node () (.element "ul" [("class", .string "c")]) [
      .node () (.element "li" []) [.node () (.text "d") []]]
    ∃ t d₁ d₂ before s d₃, Template.ofCompiled {} sampleList { name := "page" } = .ok t d₁ ∧
      Rendering.run (t.render (sampleContext "a" [.string "b", .null])) d₁ =
        (.ok t.live.root, d₂, before) ∧
      Template.ofCompiled {} sampleList d₂ = .ok s d₃ ∧ Stage d₃ [s, t] ∧ s ∈ [s, t] ∧
      (∃ T, d₃.tree t.live.root = .ok T ∧ T.shape = first) ∧
      ∃ d' events, Rendering.run (s.render (sampleContext "c" [.string "d"])) d₃ =
          (.ok s.live.root, d', events) ∧
        (∀ x n, d'.view x = some n ∧ ¬d'.view.Above s.live.root x ↔
          d₃.view x = some n ∧ ¬d₃.view.Above s.live.root x) ∧
        (∀ r ∈ [s, t], r ≠ s → d'.tree r.live.root = d₃.tree r.live.root) ∧
        (∀ r ∈ [s, t], ∀ x ∈ r.pattern.prototypes, d'.tree x = d₃.tree x) ∧
        (∃ T, d'.tree s.live.root = .ok T ∧ T.shape = second) ∧
        ∃ T, d'.tree t.live.root = .ok T ∧ T.shape = first := by
  intro first second
  have standard : ({} : Environment).handlers = .standard := rfl
  have ready : Ready { name := "page" } := ⟨accounted_empty "page" false, rfl⟩
  obtain ⟨t, d₁, d₂, before, T, built, rendered, read, shape⟩ :=
    Template.render_of_ready standard shaped_sampleList (sampleContext "a" [.string "b", .null]) ready
  have one : Chronicle .standard d₁ [⟨t, some sampleList, []⟩] :=
    .built (.start ⟨sound_empty "page" false, rfl⟩) standard tidy_sampleList built
  have shown : Chronicle .standard d₂ [⟨t, some sampleList, [sampleContext "a" [.string "b", .null]]⟩] :=
    @Chronicle.rendered _ d₁ d₂ [] [] _ _ _ before one rendered
  obtain ⟨tops, held, -⟩ := shown.gathered
  obtain ⟨s, d₃, d₄, events, U, again, rendered', read', shape'⟩ :=
    Template.render_of_ready standard shaped_sampleList (sampleContext "c" [.string "d"])
      ⟨held.steady.sound.accounted, held.steady.lenient⟩
  have stage : Stage d₃ [s, t] := ⟨_, .built shown standard tidy_sampleList again, rfl⟩
  have still := tree_of_built standard tidy_sampleList again held.steady read
  obtain ⟨d', events', run, outside, others, prototypes⟩ :=
    stage.render_confined (List.mem_cons_self ..) (sampleContext "c" [.string "d"])
  have same := rendered'.symm.trans run
  cases same
  have apart : t ≠ s := by
    rintro rfl
    obtain ⟨_, held', -⟩ := stage.held
    exact ((List.pairwise_cons.1 held'.apart).1 t (List.mem_singleton_self t)).1 .self
  have listed : t ∈ [s, t] := List.mem_cons_of_mem s (List.mem_singleton_self t)
  refine ⟨t, d₁, d₂, before, s, d₃, built, rendered, again, stage, List.mem_cons_self ..,
    ⟨T, still, shape.trans (expand_sampleList ..)⟩, d₄, events, rendered', outside, others, prototypes,
    ⟨U, read', shape'.trans (expand_sampleList ..)⟩, T, ?_, shape.trans (expand_sampleList ..)⟩
  rw [others t listed apart, still]

end Stage

end Stencil
