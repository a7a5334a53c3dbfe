import Stencil.Proofs.Render.Isolation
import Stencil.Proofs.Render.Staging

/-! # Failing handlers in a document with templates

Templates with handlers of the host program are made in a document, strict or lenient, and rendered
in any order and with any result. Their bare forms are kept apart from each other all the time,
and so each rendering goes on after every handler that fails as if it had not been called.
-/

namespace Stencil

open Markup NodeTree Document Edit View

/-- Documents, strict or lenient, in which the nodes that are there stay, and admissible handlers. -/
def Setting.hosted : Setting where
  opens d := d.Sound
  grows d d' := d'.Sound ∧ ∀ x n, d.view x = some n → d'.view x = some n
  admits env := env.handlers.Admissible

/-- A document with templates that have admissible handlers. -/
def Play (d : Document) (ts : List Template) : Prop :=
  ∃ es, Chronicle .hosted d es ∧ es.map Member.template = ts

/-! ## Isolated renderings of templates -/

namespace Held

variable {d d' : Document} {ts : List Template} {tops : List NodeId} {s t : Template}

/-- What a rendering of one template leaves, when it has been ended half way as well. -/
theorem spared (h : Held d.lenient ts tops) (mem : t ∈ ts) (top : t.live.root ∈ tops)
    (upheld : t.live.Upheld d d') : Held d'.lenient ts tops := by
  obtain ⟨n, m, node, node', parent⟩ := upheld.root
  have forest : d.view.Forest := h.steady.forest
  have above : ∀ a, ∀ s ∈ ts, d'.view.Above a s.live.root ↔ d.view.Above a s.live.root := by
    intro a s other
    rcases h.eq_or_apart other mem with rfl | ⟨-, apart⟩
    · exact upheld.spared.above_top forest node node' parent
    · obtain ⟨k, there⟩ := (h.settled s other).root
      exact upheld.spared.above_iff forest there (mt inside_singleton.1 apart)
  refine ⟨upheld.sound.steady, h.standard, fun s other => ?_, fun s other => ?_, ?_, h.active⟩
  · by_cases same : s = t
    · exact same ▸ upheld.settled
    · have settled : s.live.Settled d.view := h.settled s other
      exact settled.of_spared forest upheld.spared (h.not_inside other mem same .self) fun x host =>
        h.not_inside other mem same (settled.inside x host)
  · have wide : Spared tops d.view d'.view := upheld.spared.mono (by simpa using top)
    refine (h.wired s other).mono (fun {x k} there => ?_) _
    obtain ⟨node, out⟩ := outside_eq_some.1 there
    exact outside_eq_some.2 ⟨wide node out, wide.not_inside forest node out⟩
  · refine h.apart.imp_of_mem fun {s u} left right apart => ?_
    show ¬d'.view.Above s.live.root u.live.root ∧ ¬d'.view.Above u.live.root s.live.root
    rw [above _ u right, above _ s left]
    exact apart

end Held

namespace Play

variable {d d' : Document} {ts : List Template} {s t : Template}

/-- The templates have handlers for their kinds, all of them admissible, and the bare forms are
kept apart in the lenient document. -/
structure Kept (d : Document) (ts : List Template) : Prop where
  gathered : Gathered d.lenient (ts.map Template.bare)
  known : ∀ t ∈ ts, t.Known
  admissible : ∀ t ∈ ts, t.environment.handlers.Admissible

theorem Kept.sound (h : Kept d ts) : d.Sound := by
  obtain ⟨tops, held, -⟩ := h.gathered
  exact sound_lenient.1 held.steady.sound

/-- A rendering goes through or is ended by the document, and the templates stay apart. -/
theorem Kept.render (h : Kept d ts) (mem : t ∈ ts) (scope : Scope) :
    ∃ d' deeds, Kept d' ts ∧
      (Performs (t.pattern.render t.environment scope t.live)
          (t.pattern.tell t.environment scope t.live) d d' deeds ∨
        ∃ e, Aborts (t.pattern.render t.environment scope t.live)
          (t.pattern.tell t.environment scope t.live) d d' deeds e) := by
  obtain ⟨tops, held, own⟩ := h.gathered
  have listed : t.bare ∈ ts.map Template.bare := List.mem_map_of_mem mem
  have sound : d.Sound := sound_lenient.1 held.steady.sound
  rcases held.active _ listed with top | idle
  · have wired := (held.wired _ listed).parts
    rw [show t.bare.pattern.parts = t.pattern.parts.map Pattern.bare from Pattern.parts_bare _]
      at wired
    have parts : Pattern.WiredAll (outside [t.live.root] d.view) (t.pattern.parts.map Pattern.bare) :=
      Pattern.WiredAll.mono (outside_subset (by simpa [Template.bare, Instance.bare] using top)) _ wired
    have beside : (outside [t.live.root] d.view).Beside t.live.root d.view := fun x n node =>
      ⟨(outside_eq_some.1 node).1, mt inside_singleton.2 (outside_eq_some.1 node).2⟩
    obtain ⟨d', deeds, upheld, outcome⟩ := Pattern.isolates (h.admissible t mem) t.pattern
      (h.known t mem).pattern t.live _ scope parts (h.known t mem).live d sound
      (held.settled _ listed) beside
    exact ⟨d', deeds, ⟨⟨tops, held.spared listed top upheld, own⟩, h.known, h.admissible⟩, outcome⟩
  · have empty : t.live.Idle := ⟨BindingTable.eq_empty_of_map BoundBinding.key_bare idle.1, idle.2⟩
    refine ⟨d, [], h, .inl ?_⟩
    rw [Pattern.render, Pattern.tell, empty.write, empty.write]
    exact .nothing d

theorem kept (h : Play d ts) : Kept d ts := by
  obtain ⟨es, chronicle, rfl⟩ := h
  induction chronicle with
  | start sound => exact ⟨.start sound.steady, by simp, by simp⟩
  | @grown d d' es _ grows ih =>
      obtain ⟨sound, kept⟩ := grows
      have grown : Grown [] d.lenient d'.lenient :=
        ⟨sound.steady, fun node => ⟨_, kept _ _ node, rfl, rfl, rfl⟩, fun _ node => kept _ _ node⟩
      exact ⟨ih.gathered.grown grown, ih.known, ih.admissible⟩
  | @built d d' es env c t _ admissible tidy run ih =>
      obtain ⟨bare, rfl, known⟩ := Template.ofCompiled_bare ih.sound run
      exact ⟨ih.gathered.built rfl tidy.bare bare, List.forall_mem_cons.2 ⟨known, ih.known⟩,
        List.forall_mem_cons.2 ⟨admissible, ih.admissible⟩⟩
  | @taken d d' es env c r t _ admissible apart inner tidy run ih =>
      obtain ⟨bare, rfl, known⟩ := Template.ofNode_bare ih.sound run
      refine ⟨ih.gathered.taken rfl (List.forall_mem_map.2 (List.forall_mem_map.2 fun e mem => ?_)) ?_
          (fun T read => ?_) bare,
        List.forall_mem_cons.2 ⟨known, ih.known⟩, List.forall_mem_cons.2 ⟨admissible, ih.admissible⟩⟩
      · obtain ⟨up, down, prototypes⟩ := apart e mem
        refine ⟨up, down, fun x listed => prototypes x ?_⟩
        rwa [show e.template.bare.pattern.prototypes = e.template.pattern.prototypes from
          Pattern.prototypes_bare _] at listed
      · rw [CompiledTemplate.slots_bare]
        exact inner.bare
      · rw [CompiledTemplate.slots_bare]
        have same : d.lenient.tree r = d.tree r := treeWithin_lenient d _ r
        exact CompiledTemplate.tidy_bareSlots (tidy T (same ▸ read))
  | @copied d d' es e t _ mem run ih =>
      obtain ⟨tops, held, own⟩ := ih.gathered
      have own : e.template ∈ es.map Member.template := List.mem_map_of_mem mem
      have listed : e.template.bare ∈ (es.map Member.template).map Template.bare :=
        List.mem_map_of_mem own
      have alike : e.template.cloneSub d = e.template.clone d := by
        have prototype : e.template.pattern.prototype ∈ e.template.bare.pattern.prototypes := by
          rw [show e.template.bare.pattern.prototypes = e.template.pattern.prototypes from
            Pattern.prototypes_bare _]
          exact e.template.pattern.prototype_mem_prototypes
        obtain ⟨q, P, stands, label⟩ := (held.wired _ listed).stand _ _ prototype
        have there : d.view.Stands q P := stands.mono fun _ _ node => (outside_eq_some.1 node).1
        exact bind_congr_run (e.template.environment.instantiateByParts_of_stands there label
          (sound_lenient.1 held.steady.sound)) _
      rw [alike, or_self] at run
      obtain ⟨bare, environment, -, known⟩ := Template.clone_bare ih.sound (ih.known _ own) run
      refine ⟨ih.gathered.copied listed bare, List.forall_mem_cons.2 ⟨known, ih.known⟩,
        List.forall_mem_cons.2 ⟨?_, ih.admissible⟩⟩
      rw [environment]
      exact ih.admissible _ own
  | @rendered d d' front back e context result events _ run ih =>
      rw [List.map_append, List.map_cons] at ih ⊢
      obtain ⟨_, deeds, kept, performs | ⟨x, aborts⟩⟩ :=
        ih.render (List.mem_append_right _ (List.mem_cons_self ..)) (.ofContext context)
      · rw [Template.run_render (performs.render [])] at run
        cases run
        exact kept
      · rw [Template.run_render_error (aborts.render [])] at run
        cases run
        exact kept

/-- A rendering goes on after every handler that fails as if it had not been called. It is told by
what it does: when no call makes the document refuse, the rendering gives the root, the telling in
which the calls that fail are left out gives it as well, in the same document, and does the same but
for these calls; the logger receives one line for each of them and for each region whose source is
neither null nor an array. A call that makes the document refuse is the last, and gives the error. -/
theorem render_isolated (h : Play d ts) (mem : t ∈ ts) (context : Value) :
    ∃ result d' deeds,
      Telling.run (t.tell context) [] d = (result, { document := d', deeds }) ∧
      Rendering.run (t.render context) d = (result, d', deeds.flatMap Deed.events) ∧
      Log.taken t.environment.logLevel ((deeds.flatMap Deed.events).filterMap Event.entry?) =
        deeds.filterMap Deed.report? ∧
      ((∀ x ∈ deeds, x.dom? = none) → result = .ok t.live.root ∧
        Telling.run (t.tell context) (deeds.filterMap Deed.cue?) d =
          (.ok t.live.root, { document := d', deeds := deeds.filter Deed.succeeds })) ∧
      ∀ front x back e, deeds = front ++ x :: back → x.dom? = some e →
        result = .error (.dom e) ∧ back = [] := by
  obtain ⟨d', deeds, -, outcome⟩ := h.kept.render mem (.ofContext context)
  have logged : Log.taken t.environment.logLevel
      ((deeds.flatMap Deed.events).filterMap Event.entry?) = deeds.filterMap Deed.report? := by
    rw [taken_entries, Deed.filterMap_flatMap_events]
  rcases outcome with performs | ⟨x, aborts⟩
  · refine ⟨.ok t.live.root, d', deeds, ?_, ?_, logged, fun _ => ⟨rfl, ?_⟩, ?_⟩
    · have whole : t.tell context { document := d } = .ok t.live.root { document := d', deeds } :=
        bind_ok (performs.tell [])
      rw [Telling.run, whole]
    · rw [Template.run_render (performs.render []), List.append_nil, List.reverse_reverse]
    · have whole : t.tell context { document := d, cues := deeds.filterMap Deed.cue? } =
          .ok t.live.root { document := d', deeds := deeds.filter Deed.succeeds } := by
        have skipped := performs.omitted [] []
        rw [List.append_nil, List.nil_append] at skipped
        exact bind_ok skipped
      rw [Telling.run, whole]
    · intro front x back e same refused
      have calm := performs.calm x (by rw [same]; simp)
      rw [calm] at refused
      cases refused
  · obtain ⟨front, last, rfl, calm, refused⟩ := aborts.last
    refine ⟨.error (.dom x), d', front ++ [last], ?_, ?_, logged, fun quiet => ?_, ?_⟩
    · have whole : t.tell context { document := d } =
          .error (.dom x) { document := d', deeds := front ++ [last] } :=
        bind_error (aborts.tell [])
      rw [Telling.run, whole]
    · rw [Template.run_render_error (aborts.render []), List.append_nil, List.reverse_reverse]
    · have none_left := quiet last (by simp)
      rw [refused] at none_left
      cases none_left
    · intro front' y back e same other
      rcases List.eq_nil_or_concat back with rfl | ⟨more, z, rfl⟩
      · obtain ⟨-, ends⟩ := List.append_inj' same rfl
        cases ends
        rw [refused] at other
        cases other
        exact ⟨rfl, rfl⟩
      · -- The call that makes the document refuse would not be the last.
        rw [List.concat_eq_append, ← List.cons_append, ← List.append_assoc] at same
        obtain ⟨rfl, -⟩ := List.append_inj' same rfl
        rw [calm y (by simp)] at other
        cases other

/-- An element with a text and an attribute for which a handler of the host program takes no value:
the rendering goes on without the attribute, and reports it. -/
theorem render_isolated_element :
    let refuse : Handler := fun _ _ => throw (.refused "no")
    let env : Environment := { handlers := { entries := Registry.standard.entries ++ [("X", refuse)] } }
    let c : CompiledTemplate := {
      slots := [[.binding { kind := .custom "X", key := "a", attr := some "title" },
        .binding { kind := .escaped, key := "a" }]]
      skeleton := .plain ""
      expression := none }
    let d : Document :=
      (({ name := "page", strict := true } : Document).create (.element "p" [(Marker.host, .string "")])).2
    let context : Value := .object [("a", .string "b")]
    ∃ t d₁, Template.ofNode env c ⟨0⟩ d = .ok t d₁ ∧ Play d₁ [t] ∧ t ∈ [t] ∧
      ∃ result d₂ deeds,
        Telling.run (t.tell context) [] d₁ = (result, { document := d₂, deeds }) ∧
        Rendering.run (t.render context) d₁ = (result, d₂, deeds.flatMap Deed.events) ∧
        Log.taken t.environment.logLevel ((deeds.flatMap Deed.events).filterMap Event.entry?) =
          deeds.filterMap Deed.report? ∧
        ((∀ x ∈ deeds, x.dom? = none) → result = .ok t.live.root ∧
          Telling.run (t.tell context) (deeds.filterMap Deed.cue?) d₁ =
            (.ok t.live.root, { document := d₂, deeds := deeds.filter Deed.succeeds })) ∧
        (∀ front x back e, deeds = front ++ x :: back → x.dom? = some e →
          result = .error (.dom e) ∧ back = []) ∧
        result = .ok ⟨0⟩ ∧ d₂.serialize ⟨0⟩ = .ok "<p>b</p>" ∧
        deeds.filterMap Deed.report? = [{
          level := .error, text := "Failed to render value \"b\" for 'a': no" }] := by
  intro refuse env c d context
  have distinct : AttributesDistinct (.element "p" [(Marker.host, .string "")]) := by
    exact List.nodup_singleton Marker.host
  have sound : d.Sound := keeps_create distinct _ (sound_empty "page" true)
  have registered : Registry.standard.register "X" refuse = .ok env.handlers := rfl
  have admissible : env.handlers.Admissible :=
    Registry.admissible_standard.register (Handler.tame_throw "no") registered
  have read : d.tree ⟨0⟩ = .ok (.node ⟨0⟩ (.element "p" [(Marker.host, .string "")]) []) := rfl
  have told : ∃ t d₁, Template.ofNode env c ⟨0⟩ d = .ok t d₁ ∧
      (Telling.run (t.tell context) [] d₁).1 = .ok ⟨0⟩ ∧
      (Telling.run (t.tell context) [] d₁).2.document.serialize ⟨0⟩ = .ok "<p>b</p>" ∧
      (Telling.run (t.tell context) [] d₁).2.deeds.filterMap Deed.report? = [{
        level := .error, text := "Failed to render value \"b\" for 'a': no" }] :=
    ⟨_, _, rfl, by decide +kernel, by decide +kernel, by decide +kernel⟩
  obtain ⟨t, d₁, run, given, markup, reports⟩ := told
  have inner : CompiledTemplate.TidySlots c.slots := ⟨⟨trivial, trivial, trivial⟩, trivial⟩
  have tidy : ∀ T, d.tree ⟨0⟩ = .ok T → T.Tidy c.slots := by
    intro T same
    rw [read] at same
    cases same
    exact tidy_of_childless rfl _
  have play : Play d₁ [t] :=
    ⟨_, .taken (.start sound) admissible (List.forall_mem_nil _) inner tidy run, rfl⟩
  obtain ⟨result, d₂, deeds, telling, rendering, logged, quiet, loud⟩ :=
    play.render_isolated (List.mem_singleton_self t) context
  rw [telling] at given markup reports
  exact ⟨t, d₁, run, play, List.mem_singleton_self t, result, d₂, deeds, telling, rendering, logged,
    quiet, loud, given, markup, reports⟩

end Play

end Stencil
