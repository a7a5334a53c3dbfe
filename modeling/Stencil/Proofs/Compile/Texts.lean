import Stencil.Proofs.Compile.Growing

/-! # Texts with directives

A text gives way to its literal pieces and one element for every directive.
-/

namespace Stencil.Compile

open Markup NodeTree View

variable {w w₁ w₂ : Workbench} {p r : NodeId} {g : Gap} {old : List NodeId}
  {rest : List NodeId}

/-- One exchange after another between the same neighbours. -/
theorem Grown.followed {us vs : List (NodeTree NodeId)} {trees more : List (NodeTree Slot)}
    (first : Grown w w₁ p g [] us trees)
    (second : Grown w₁ w₂ p (g.right (us.map label)) [] vs more) :
    Grown w w₂ p g [] (us ++ vs) (trees ++ more) :=
  Grown.append (show Grown w w₁ p (g.left []) [] us trees from first) second (by simp) (by simp)

/-- What has been put in front of a child leaves the child where it is. -/
theorem Grown.host_right {us : List (NodeTree NodeId)} {trees : List (NodeTree Slot)}
    (h : Grown w w₁ p (g.left rest) old us trees) :
    w₁.document.view p = some ((g.right (us.map label)).fill rest) := by
  rw [h.host, Gap.fill_left, Gap.fill_right]

theorem bindElement_follows (s : Settings) (source : Source) (o : Occurrence) (h : w.Sound)
    (host : w.document.view p = some (g.fill (r :: rest))) :
    Follows
      (do
        let wrapper ← edit (do
          let wrapper ← Document.createElement s.config.wrapperTag
          Document.insertBefore p wrapper r
          return wrapper)
        bindDirective s wrapper source o none)
      (do
        let b ← Plan.binding source o none
        return [.node [.binding b] (.element (Text.lower s.config.wrapperTag) []) []])
      (fun _ trees w' => ∃ us, Grown w w' p (g.left (r :: rest)) [] us trees) w := by
  obtain ⟨c, d, run, grown⟩ := insertElement_ok h host s.config.wrapperTag
  refine .step (edit_ok run) ((bindDirective_follows s c source o none _).map ?_)
  intro _ b w' bound
  exact ⟨_, grown.refer (.binding b) bound.1 bound.2⟩

theorem splitOff_follows (s : Settings) (source : Source) (o : Occurrence) (h : w.Sound)
    (host : w.document.view p = some (g.fill (r :: rest))) :
    Follows (splitOff s source p r o) (Plan.ofOccurrence s source o)
      (fun _ trees w' => ∃ us, Grown w w' p (g.left (r :: rest)) [] us trees) w := by
  unfold splitOff Plan.ofOccurrence Plan.literal
  by_cases empty : o.preamble.isEmpty
  · simp only [if_pos empty]
    exact bindElement_follows s source o h host
  · simp only [if_neg empty]
    obtain ⟨c, d, run, first⟩ := insertText_ok h host o.preamble
    refine .step (edit_ok run) ?_
    have second := bindElement_follows s source o first.sound first.host_right
    cases found : Plan.binding source o none with
    | error e =>
        rw [found] at second
        exact second
    | ok b =>
        rw [found] at second
        obtain ⟨a, w', run, us, grown⟩ := second
        exact .done run ⟨_, first.followed grown⟩

theorem splitAll_follows (s : Settings) (source : Source) (found : List Occurrence) (h : w.Sound)
    (host : w.document.view p = some (g.fill (r :: rest))) :
    Follows
      (forIn found PUnit.unit fun o _ => do
        splitOff s source p r o
        pure (ForInStep.yield PUnit.unit))
      (Plan.ofOccurrences s source found)
      (fun _ trees w' => ∃ us, Grown w w' p (g.left (r :: rest)) [] us trees) w := by
  induction found generalizing w g with
  | nil =>
      have none_yet : Grown w w p (g.left (r :: rest)) [] [] [] := .empty h (by
        rw [Gap.fill_left]
        exact host)
      exact .pure ⟨[], none_yet⟩
  | cons o found ih =>
      rw [List.forIn_cons, Plan.ofOccurrences, bind_assoc]
      refine (splitOff_follows s source o h host).bind ?_
      intro _ trees w₁ outcome
      obtain ⟨us, first⟩ := outcome
      rw [pure_bind]
      refine (ih first.sound first.host_right).map ?_
      intro _ more w' outcome
      obtain ⟨vs, second⟩ := outcome
      exact ⟨us ++ vs, first.followed second⟩

/-- In the end the text itself is taken out. -/
theorem Grown.remove {us : List (NodeTree NodeId)} {trees : List (NodeTree Slot)}
    (h : Grown w w₁ p (g.left [r]) [] us trees) (there : w.document.view r ≠ none) :
    ∃ d, Document.remove p r w₁.document = .ok () d ∧
      Grown w { w₁ with document := d } p g [r] us trees := by
  have out : r ∉ labelsAll us := by
    intro mem
    rcases h.fresh r mem with known | fresh
    · cases known
    · exact there fresh
  have host : w₁.document.view p = some {
      data := g.data, parent := g.parent
      children := (g.before ++ us.map label) ++ r :: g.after } := by
    rw [h.host]
    simp [Gap.fill, Gap.left]
  obtain ⟨n, node, -⟩ := h.sound.document.forest.child host
    (by simp : r ∈ (g.before ++ us.map label) ++ r :: g.after)
  obtain ⟨d, run, sound, host', node', frame⟩ :=
    Document.remove_child_ok h.sound.document host node
  have still : Workbench.Sound { w₁ with document := d } := by
    refine h.sound.edited sound fun x _ live => ?_
    by_cases xp : x = p
    · simp [xp, host']
    · by_cases xr : x = r
      · simp [xr, node']
      · rwa [frame x xp xr]
  refine ⟨d, run, still, ?_, standAll_congr _ us (fun x mem => ?_) h.stands, h.shown,
    fun x xp mem live => ?_, fun x mem => ?_, h.others⟩
  · rw [host']
    rfl
  · have xp : x ≠ p := fun same => h.parent_not_mem (same ▸ mem)
    have xr : x ≠ r := fun same => out (same ▸ mem)
    exact frame x xp xr
  · have xr : x ≠ r := by simpa using mem
    exact (frame x xp xr).trans (h.frame x xp (by simp) live)
  · exact (h.fresh x mem).imp_left fun known => by cases known

theorem splitText_follows (s : Settings) {value : String} (h : w.Sound)
    (host : w.document.view p = some (g.fill [r]))
    (node : w.document.view r = some { data := .text value, parent := some p, children := [] })
    (bare : w.hosts.slotOf r = []) :
    Follows (splitText s r value) (Plan.ofText s value)
      (fun _ trees w' => ∃ us, Grown w w' p g [r] us trees) w := by
  unfold splitText Plan.ofText
  refine (Follows.lift _ w).bind ?_
  intro found _ _ same
  obtain ⟨rfl, rfl⟩ := same
  by_cases none_found : found.isEmpty
  · simp only [if_pos none_found]
    have stands : w.document.view.StandAll (some p) [.node r (.text value) []] :=
      ⟨⟨node, trivial⟩, trivial⟩
    have same := Grown.refl h host stands
    have shown : [NodeTree.node r (.text value) []].map (NodeTree.map w.hosts.slotOf) =
        [.node [] (.text value) []] := by
      simp [NodeTree.map, bare]
    rw [shown] at same
    exact .pure ⟨_, same⟩
  · simp only [if_neg none_found]
    refine .trace fun steps => .step (ask_ok (Document.parent_eq_ok node)) ?_
    have live : w.document.view r ≠ none := by simp [node]
    refine (splitAll_follows s _ found (h.traced steps) host).bind ?_
    intro _ trees w₁ outcome
    obtain ⟨us, first⟩ := outcome
    by_cases used : (Occurrence.trailing value).isEmpty
    · simp only [if_pos used, Plan.literal]
      obtain ⟨d, run, grown⟩ := first.remove live
      exact .done (edit_ok run) ⟨us, by simpa using grown.untraced⟩
    · simp only [if_neg used, Plan.literal]
      obtain ⟨c, d, run, second⟩ := insertText_ok first.sound first.host_right _
      obtain ⟨d', run', grown⟩ := (first.followed second).remove live
      exact .step (edit_ok run) (.done (edit_ok run') ⟨_, grown.untraced⟩)

end Stencil.Compile
