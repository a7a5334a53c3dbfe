import Stencil.Proofs.Compile.Walk

/-! # Compiling a tree

A tree whose root is an element compiles to its plan, or is refused with the error of the
plan. The nodes outside the tree stay as they are, and what has been written of the template
and of its parts stands in the document.
-/

namespace Stencil

open Markup NodeTree View

namespace Plan

open Compile

variable {s : Settings} {name : String} {attributes : List (String × Value)}
  {children : List (NodeTree NodeId)} {d : Plan}

/-- How the plan of an element is made. -/
theorem ofRoot_eq_ok (h : ofRoot s name attributes children = .ok d) :
    ∃ kept slot own below, ofAttributes s attributes = .ok (kept, slot) ∧
      ofContent s children (ofTrees s children) = .ok (own, below) ∧
      d = plan (.node (slot ++ own) (.element name kept) below.trees) none below.parts := by
  obtain ⟨⟨kept, slot⟩, known, h⟩ := bind_eq_ok.1 h
  obtain ⟨⟨own, below⟩, planned, h⟩ := bind_eq_ok.1 h
  cases h
  exact ⟨kept, slot, own, below, known, planned, rfl⟩

theorem solid_ofContent {own : Slot} {below : Sketch}
    (h : ofContent s children (ofTrees s children) = .ok (own, below)) : Solid below.trees := by
  rcases ofContent_cases h with ⟨b, -, rfl⟩ | ⟨-, inside⟩
  · exact solid_nil
  · exact solid_ofTrees children inside

theorem solid_ofRoot (h : ofRoot s name attributes children = .ok d) : Solid [d.tree] := by
  obtain ⟨kept, slot, own, below, -, planned, rfl⟩ := ofRoot_eq_ok h
  exact (solid_ofContent planned).element _ _ _

end Plan

namespace Compile

variable {w : Workbench} {q : Option NodeId} {id : NodeId} {name : String}
  {attributes : List (String × Value)} {children : List (NodeTree NodeId)}

/-- What stands at the root shows the tree of the plan, and the parts have been copied. -/
structure Laid (w : Workbench) (q : Option NodeId) (id : NodeId) (old : List NodeId) (d : Plan)
    (w' : Workbench) (t : NodeTree NodeId) : Prop where
  sound : w'.Sound
  label : t.label = id
  stands : w'.document.view.Stands q t
  shown : t.map w'.hosts.slotOf = d.tree
  expression : d.expression = none
  copies : ∀ part ∈ d.parts,
    Copied w'.document.view (fun x => x ∈ old ∨ w.document.view x = none) part
  fresh : ∀ x, w'.document.view x = none → x ∈ old ∨ w.document.view x = none
  frame : ∀ x, x ≠ id → x ∉ old → w.document.view x ≠ none →
    w'.document.view x = w.document.view x

theorem root_follows (s : Settings) {fuel : Nat} (short : heightAll children ≤ fuel) (h : w.Sound)
    (bare : ∀ x, w.hosts.slotOf x = [])
    (stands : w.document.view.Stands q (.node id (.element name attributes) children)) :
    Follows (root s fuel id) (Plan.ofRoot s name attributes children)
      (fun _ d w' => ∃ t, Laid w q id (labelsAll children) d w' t) w := by
  have xs : id ∉ labelsAll children := h.document.forest.not_mem_labelsAll stands.2
  have asked : ask (·.data id) w = .ok (.element name attributes) w :=
    ask_ok (Document.data_eq_ok stands.1)
  unfold root Plan.ofRoot
  refine .step asked ?_
  simp only [enter, bind_assoc]
  refine .trace fun steps => ?_
  refine (bindAttributes_follows s (h.traced steps) stands.1).bind ?_
  rintro _ ⟨kept, slot⟩ w₁ ⟨dressed, node₁⟩
  have below : ∀ x ∈ labelsAll children, x ≠ id := fun x mem same => xs (same ▸ mem)
  have stands₁ : w₁.document.view.StandAll (some id) children :=
    standAll_congr _ children (fun x mem => dressed.frame x (below x mem)) stands.2
  have bare₁ : ∀ x ∈ labelsAll children, w₁.hosts.slotOf x = [] := fun x mem =>
    (dressed.others x (below x mem)).trans (bare x)
  refine (content_follows s dressed.sound node₁ stands₁ bare₁ ?_).map ?_
  · exact (visit_follows s fuel).children short dressed.sound node₁ stands₁ bare₁
  · rintro _ ⟨own, sketch⟩ w' ⟨w₂, more, document, us, grown, copies⟩
    have unused : ∀ x, w₂.document.view x = none → w.document.view x = none := by
      intro x fresh
      have other : x ≠ id := by
        intro same
        rw [same, document, node₁] at fresh
        cases fresh
      rw [document, dressed.frame x other] at fresh
      exact fresh
    refine ⟨.node id (.element name kept) us, grown.sound, rfl, ⟨?_, grown.stands⟩, ?_, rfl,
      fun part mem => (copies part mem).mono (fun _ _ _ => rfl) fun x => .imp_right (unused x),
      fun x fresh => (grown.old_or_fresh fresh).imp_right (unused x), fun x other out live => ?_⟩
    · rw [grown.host, Gap.fill_inside]
    · have none_yet : w₁.hosts.slotOf id = slot := by
        refine dressed.own.trans ?_
        rw [show Hosts.slotOf w.hosts id = [] from bare id, List.nil_append]
      rw [NodeTree.map, grown.others id grown.parent_not_mem, more.own, none_yet, mapAll_eq_map,
        grown.shown]
      rfl
    · have same : w₂.document.view x = w.document.view x := by
        rw [document]
        exact dressed.frame x other
      rw [grown.frame x other out (same ▸ live), same]

/-- What is known of a compilation that has given a result. -/
theorem Follows.of_run {α β : Type} {m : Compile α} {plan : Except SyntaxError β}
    {post : α → β → Workbench → Prop} {d : Document} {a : α}
    (h : Follows m plan post { document := d }) (result : (m.run d).1 = .ok a) :
    ∃ b w', plan = .ok b ∧ post a b w' ∧ (m.run d).2.1 = w'.document := by
  cases plan with
  | ok b =>
      obtain ⟨a', w', run, outcome⟩ := h
      rw [Compile.run, run] at result ⊢
      cases result
      exact ⟨b, w', rfl, outcome, rfl⟩
  | error e =>
      obtain ⟨w', run⟩ := h
      rw [Compile.run, run] at result
      cases result

/-- The template of a plan has been made and written, and nothing else has changed. -/
structure Written (w : Workbench) (id : NodeId) (old : List NodeId) (c : CompiledTemplate)
    (d : Plan) (w' : Workbench) : Prop where
  compiled : c = d.compiled
  sound : w'.document.Sound
  copied : Copied w'.document.view (fun x => x ∈ old ∨ w.document.view x = none) d
  frame : ∀ x, x ≠ id → x ∉ old → w.document.view x ≠ none →
    w'.document.view x = w.document.view x

/-- The root is compiled and then emitted. -/
theorem template_follows (s : Settings) {fuel : Nat} (short : heightAll children ≤ fuel) (h : w.Sound)
    (bare : ∀ x, w.hosts.slotOf x = [])
    (stands : w.document.view.Stands q (.node id (.element name attributes) children)) :
    Follows
      (do
        root s fuel id
        emit id none)
      (Plan.ofRoot s name attributes children) (Written w id (labelsAll children)) w := by
  refine (root_follows s short h bare stands).andThen ?_
  rintro _ d w₁ planned ⟨t, laid⟩
  have solid : Plan.Solid [t.map w₁.hosts.slotOf] := laid.shown ▸ Plan.solid_ofRoot planned
  obtain ⟨w', c, emitted, sound, standing, shape, fresh, frame⟩ :=
    emit_ok laid.sound laid.stands solid none
  rw [laid.label, laid.shown] at emitted
  refine ⟨_, w', emitted, ?_, sound, .intro standing (laid.shown ▸ shape)
    (fun x mem => laid.fresh x (fresh x mem)) fun part mem => ?_, fun x other out live => ?_⟩
  · rw [Plan.compiled, laid.expression]
  · exact (laid.copies part mem).mono (fun x _ live => frame x live) fun _ free => free
  · have same := laid.frame x other out live
    rw [frame x (same ▸ live), same]

/-- No tree that stands in a document has more levels than the document has slots. -/
theorem levels_le (h : w.document.Sound) {data : NodeData}
    (stands : w.document.view.Stands q (.node id data children)) :
    heightAll children ≤ w.document.slots.size := by
  have nodup := h.forest.nodup_labels _ _ stands
  refine Nat.le_of_succ_le (Nat.le_trans ?_ (Document.length_labels_le stands nodup))
  exact height_le_length_labels (.node id data children)

/-- A tree whose root is an element compiles to its plan, or is refused as the plan is. -/
theorem compileNode_follows (config : Config) (title : String) (h : w.document.Sound)
    (read : w.document.tree id = .ok (.node id (.element name attributes) children)) :
    Follows (compileNode config title id)
      (Plan.ofRoot { config, name := title } name attributes children)
      (Written w id (labelsAll children)) w := by
  obtain ⟨n, node, -, stands⟩ := Document.stands_of_treeWithin h.forest _ id _ read
  have short := levels_le h stands
  have count : ∀ steps, ask (fun d => .ok d.slots.size) { w with steps } =
      .ok w.document.slots.size { w with steps } := fun _ => ask_ok rfl
  unfold compileNode
  refine .trace fun steps => .step (count steps) ?_
  have start : Workbench.Sound { w with hosts := {}, steps } :=
    ⟨h, Hosts.aligned_empty, fun there => by cases there⟩
  refine (template_follows _ short start (fun _ => rfl) stands).withHosts ?_
  exact fun _ _ _ outcome => ⟨outcome.compiled, outcome.sound, outcome.copied, outcome.frame⟩

/-- A tree that has a plan is accepted. -/
theorem compileNode_accepts (config : Config) (title : String) {d : Document} {plan : Plan}
    (h : d.Sound) (read : d.tree id = .ok (.node id (.element name attributes) children))
    (planned : Plan.ofRoot { config, name := title } name attributes children = .ok plan) :
    ((compileNode config title id).run d).1 = .ok plan.compiled := by
  have follows := compileNode_follows (w := { document := d }) config title h read
  rw [planned] at follows
  obtain ⟨c, w', run, written⟩ := follows
  rw [Compile.run, run, written.compiled]

end Compile

end Stencil
