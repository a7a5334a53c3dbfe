import Stencil.Proofs.Render.Casting
import Stencil.Proofs.Render.Containment

/-! # Rendering draws a script

Rendering into a copy draws the script of its mold: whatever the document shows of the copy
before, it shows the drawing of the script afterwards, and reports what the script reports.
-/

namespace Stencil

open Markup NodeTree Document Edit View

/-! ## Edits of what is shown -/

namespace Instance

variable {i : Instance} {f : NodeId → NodeId} {d d' : Document} {s : Sketch} {x : NodeId}

/-- The data of one place have changed. -/
theorem Shows.redata (h : i.Shows f d s) (apart : i.Apart f) (steady : d.Steady)
    (forest : d'.view.Forest) (mem : x ∈ i.places) {g : NodeData → NodeData}
    (own : ∀ n, d.view (f x) = some n → d'.view (f x) = some { n with data := g n.data })
    (others : ∀ y, y ≠ f x → d'.view y = d.view y) :
    i.Shows f d' (s.revise (some x) (.redata g)) := by
  obtain ⟨T, read, rfl⟩ := h
  obtain ⟨n, -, label, stands⟩ := stands_of_treeWithin steady.forest _ _ T read
  have changed := stands_redata own others T _ stands (steady.forest.nodup_labels T _ stands)
  have numbered : i.numbering f (f x) = some x := (numbering_eq_some apart).2 ⟨mem, rfl⟩
  refine ⟨T.revise (f x) (.redata g), ?_, ?_⟩
  · have read' := tree_of_stands changed (forest.nodup_labels _ _ changed)
    rwa [label_revise (fun s top => by cases s; exact top), label] at read'
  · rw [map_revise_redata (i.numbering f) g T fun y _ same => ?_, numbered]
    exact ((numbering_eq_some apart).1 (same.trans numbered)).2.symm

/-- The content of one place has changed. -/
theorem Shows.refill (h : i.Shows f d s) (apart : i.Apart f) (steady : d.Steady)
    (settled : (i.map f).Settled d.view) (settled' : (i.map f).Settled d'.view)
    (fills : (i.map f).Fills (f x)) (mem : x ∈ i.places) (tended : Tended (f x) d d') {c : Change}
    (carries : ∀ content, d.Carries (f x) content → d'.Carries (f x) (c.on content)) :
    i.Shows f d' (s.revise (some x) (Sketch.refill c)) := by
  obtain ⟨T, read, rfl⟩ := h
  obtain ⟨n, m, node, node', data, parent⟩ := tended.top
  obtain ⟨G, there, label, stands⟩ := exists_tree steady.forest node
  obtain ⟨G', label', stands', data', kids⟩ :=
    (carries _ (.of_tree steady.forest there)).exists_tree node'
  rw [parent] at stands'
  have numbered : i.numbering f (f x) = some x := (numbering_eq_some apart).2 ⟨mem, rfl⟩
  -- Below the place nothing is written into.
  have blank : G'.children.map (NodeTree.map (i.numbering f)) =
      unnumbered (G'.children.map shape) := by
    rw [unnumbered, List.map_map]
    refine List.map_congr_left fun t listed => ?_
    rw [Function.comp_apply, shape, map_map]
    refine map_congr t fun y inside => numbering_eq_none fun hosts => ?_
    have below := labels_subset_labelsAll listed y inside
    have whole := stands'.above (show y ∈ G'.labels by cases G'; exact .tail _ below)
    have same := settled'.leaf (f x) y fills hosts (label' ▸ whole)
    refine tended.steady.forest.not_mem_labelsAll stands'.children ?_
    rwa [label', ← same]
  have place : f i.root = f x ∨ ¬d.view.Above (f x) (f i.root) := by
    by_contra out
    obtain ⟨other, below⟩ := not_or.1 out
    exact other (steady.forest.above_antisymm node (settled.inside _ fills.hosts)
      (Classical.not_not.1 below))
  obtain ⟨k, -, -, whole⟩ := stands_of_treeWithin steady.forest _ _ T read
  refine ⟨T.revise (f x) fun _ => G', tree_revise steady.forest tended.steady.forest tended.confined
    node label' stands' read place, ?_⟩
  rw [map_revise (h := Sketch.refill c) k.parent T (fun y _ same => ?_) fun q t inside same => ?_,
    numbered]
  · exact ((numbering_eq_some apart).1 (same.trans numbered)).2.symm
  · obtain rfl : t = G := stands_unique t (whole.within inside) stands (same.trans label.symm)
    obtain ⟨id, own, children⟩ := t
    obtain ⟨id', own', children'⟩ := G'
    obtain rfl : id' = f x := label'
    obtain rfl : id = f x := same
    obtain rfl : own' = own := by
      have top := node.symm.trans stands.top
      rw [Option.some.inj top] at data
      exact data'.trans data
    rw [map_node, map_node, Sketch.refill, List.map_map]
    refine congrArg (NodeTree.node _ own') (blank.trans (congrArg unnumbered (kids.trans ?_)))
    refine congrArg c.on (List.map_congr_left fun t _ => ?_)
    exact (shape_map (i.numbering f) t).symm

end Instance

/-! ## Handlers -/

namespace RenderKind

variable {kind : RenderKind} {d : Document} {g : NodeId} {value : Value}

/-- The standard handler for a tag is that of the kind for which the tag stands. -/
theorem handler_ofTag {tag : String} {h : Handler} (found : Registry.standard.get? tag = some h) :
    h = (ofTag tag).handler ∧ (ofTag tag).isBuiltIn = true := by
  obtain ⟨front, back, entries, -⟩ := List.lookup_eq_some_iff.1 found
  have listed : (tag, h) ∈ Registry.standard.entries := by
    rw [entries]
    exact List.mem_append_right _ (List.mem_cons_self ..)
  simp only [Registry.standard, List.mem_cons, Prod.mk.injEq, List.not_mem_nil, or_false] at listed
  rcases listed with ⟨rfl, rfl⟩ | ⟨rfl, rfl⟩ | ⟨rfl, rfl⟩ | ⟨rfl, rfl⟩ | ⟨rfl, rfl⟩ <;> exact ⟨rfl, rfl⟩

theorem handler_attr (builtIn : kind.isBuiltIn = true) (name : String) (value : Value) :
    kind.handler (.attr g name) value =
      Writing.edit (Document.setAttributeValue g name (kind.attributeValue value)) := by
  cases kind with
  | custom tag => cases builtIn
  | escaped | literal | function | fragment => rfl
  | numeral => rw [attributeValue, ← Handler.numeralText_eq]; rfl

/-- A kind that can show a value changes the content of the node, and nothing else. -/
theorem handler_content (builtIn : kind.isBuiltIn = true) {c : Change}
    (shown : kind.change? value = some c) (steady : d.Steady) {n : Node}
    (host : d.view g = some n) (container : n.data.isContainer = true) :
    ∃ d', kind.handler (.content g) value d = .ok () d' ∧ Tended g d d' ∧
      ∀ content, d.Carries g content → d'.Carries g (c.on content) := by
  have text : ∀ words, ∃ d', Handler.escaped (.content g) (.string words) d = .ok () d' ∧
      Tended g d d' ∧ ∀ content, d.Carries g content → d'.Carries g (Handler.textShown words content) := by
    intro words
    obtain ⟨d', run, tended, carries⟩ := Handler.showText_tended steady host container words
    exact ⟨d', Writing.edit_ok run, tended, carries⟩
  have markup : ∀ words, ∃ d', Writing.edit (Document.setInner g words) d = .ok () d' ∧
      Tended g d d' ∧ ∀ content, d.Carries g content → d'.Carries g (parse words).1 := by
    intro words
    obtain ⟨d', run, tended, carries⟩ := setInner_tended steady host container words
    exact ⟨d', Writing.edit_ok run, tended, fun _ _ => carries⟩
  cases kind with
  | custom tag => cases builtIn
  | escaped =>
      cases shown
      exact text value.text
  | literal | fragment =>
      cases shown
      exact markup value.text
  | numeral =>
      cases shown
      rw [← Handler.numeralText_eq]
      exact markup (Handler.numeralText value)
  | function =>
      obtain ⟨result, called, rfl⟩ := Option.map_eq_some_iff.1 shown
      obtain ⟨d', run, rest⟩ := text result.text
      exact ⟨d', (congrFun (Handler.function_some g called) d).trans run, rest⟩

theorem handler_refuses (builtIn : kind.isBuiltIn = true) (hidden : kind.change? value = none) :
    kind.handler (.content g) value = throw (HandlerError.notInvokable value.typeName) := by
  cases kind with
  | custom tag => cases builtIn
  | escaped | literal | numeral | fragment => cases hidden
  | function => exact Handler.function_none g (Option.map_eq_none_iff.1 hidden)

end RenderKind

/-! ## Drawing -/

/-- What has been reported on a canvas, in order. -/
def Canvas.entries (c : Canvas) : List LogEntry := c.history.reverse.filterMap Event.entry?

theorem Canvas.entries_cons (d : Document) (e : Event) (history : List Event) :
    entries { document := d, history := e :: history } =
      entries { document := d, history := history } ++ e.lines := by
  simp only [entries, Event.lines, List.reverse_cons, List.filterMap_append]

/-- A body draws a script on a copy in any state in which the copy is settled and what is outside
of it is as given. -/
def Rendering.Draws (i : Instance) (f : NodeId → NodeId) (v : View) (body : Rendering Unit)
    (script : List Stroke) : Prop :=
  ∀ c s, c.document.Steady → (i.map f).Settled c.document.view →
    outside [f i.root] c.document.view = v → i.Shows f c.document s →
    ∃ c', body c = .ok () c' ∧ (i.map f).Written c.document c'.document ∧
      i.Shows f c'.document (s.draw script) ∧ c'.entries = c.entries ++ reports script

namespace Rendering.Draws

variable {i : Instance} {f : NodeId → NodeId} {v : View} {body next : Rendering Unit}
  {script more : List Stroke}

theorem nothing : Draws i f v (pure ()) [] := fun c _ steady settled _ shows =>
  ⟨c, rfl, .refl steady settled, shows, (List.append_nil _).symm⟩

theorem note (e : Event) : Draws i f v (Rendering.note e) (e.lines.map .report) := by
  intro c s steady settled _ shows
  refine ⟨{ c with history := e :: c.history }, rfl, .refl steady settled, ?_, ?_⟩
  · rwa [Sketch.draw_report]
  · rw [reports_report]
    exact Canvas.entries_cons c.document e c.history

theorem seq (h : Draws i f v body script) (k : Draws i f v next more) :
    Draws i f v (body >>= fun _ => next) (script ++ more) := by
  intro c s steady settled same shows
  obtain ⟨c₁, run₁, first, shows₁, entries₁⟩ := h c s steady settled same shows
  obtain ⟨c₂, run₂, second, shows₂, entries₂⟩ :=
    k c₁ _ first.steady first.settled (Eq.trans first.confined same) shows₁
  refine ⟨c₂, by rw [bind_ok run₁, run₂], first.trans second, ?_, ?_⟩
  · rwa [Sketch.draw_append]
  · rw [entries₂, entries₁, reports_append, List.append_assoc]

/-- Steps that are taken for the images of some things draw what they draw for the things. -/
theorem forM_map {γ δ : Type} {g : γ → δ} {step : δ → Rendering Unit} {out : γ → List Stroke}
    {xs : List γ} (h : ∀ x ∈ xs, Draws i f v (step (g x)) (out x)) :
    Draws i f v ((xs.map g).forM step) (xs.flatMap out) := by
  induction xs with
  | nil => exact nothing
  | cons x xs ih =>
      rw [List.flatMap_cons]
      show Draws i f v (step (g x) >>= fun _ => (xs.map g).forM step) _
      exact (h x (by simp)).seq (ih fun y mem => h y (by simp [mem]))

theorem forM {γ : Type} {step : γ → Rendering Unit} {out : γ → List Stroke} (xs : List γ)
    (h : ∀ x ∈ xs, Draws i f v (step x) (out x)) :
    Draws i f v (xs.forM step) (xs.flatMap out) := by
  have whole := forM_map (g := id) h
  rwa [List.map_id] at whole

end Rendering.Draws

namespace Instance

variable {i : Instance} {f : NodeId → NodeId} {v : View} {b : BoundBinding}

/-- A value is written to an attribute. -/
theorem draws_attr (apart : i.Apart f) {key : Binding} {x : NodeId} {name : String}
    (place : x ∈ i.places) (builtIn : (RenderKind.ofTag key.kind.tag).isBuiltIn = true)
    (value : Value) :
    Rendering.Draws i f v
      (BoundBinding.apply ⟨key, .attr (f x) name, (RenderKind.ofTag key.kind.tag).handler⟩ value)
      [.write x name ((RenderKind.ofTag key.kind.tag).attributeValue value)] := by
  intro c s steady settled same shows
  obtain ⟨n, node, element⟩ := settled.element _ (hosts_map.2 ⟨x, place, rfl⟩)
  obtain ⟨tag, own, node'⟩ := exists_element node element
  obtain ⟨d', run, -, there, others⟩ := setAttributeValue_ok steady.sound node' name
    ((RenderKind.ofTag key.kind.tag).attributeValue value)
  obtain ⟨e, again, dressed⟩ := setAttributeValue_dressed steady node element name
    ((RenderKind.ofTag key.kind.tag).attributeValue value)
  rw [run] at again
  cases again
  have called : (RenderKind.ofTag key.kind.tag).handler (.attr (f x) name) value c.document =
      .ok () d' := by
    rw [RenderKind.handler_attr builtIn, Writing.edit_ok run]
  refine ⟨_, BoundBinding.apply_ok called,
    settled.dressed steady (fun y mem => ?_) dressed,
    shows.redata apart steady dressed.steady.forest place (fun m top => ?_) others, ?_⟩
  · rw [List.mem_singleton.1 mem]
    exact hosts_map.2 ⟨x, place, rfl⟩
  · rw [node'] at top
    cases top
    exact there
  · rw [Canvas.entries_cons]
    rfl

/-- A content changes, or the value is refused. -/
theorem draws_content (apart : i.Apart f) {key : Binding} {x : NodeId} (place : x ∈ i.places)
    (fills : (i.map f).Fills (f x)) (builtIn : (RenderKind.ofTag key.kind.tag).isBuiltIn = true)
    (value : Value) :
    Rendering.Draws i f v
      (BoundBinding.apply ⟨key, .content (f x), (RenderKind.ofTag key.kind.tag).handler⟩ value)
      (BoundBinding.strokes ⟨key, .content x, (RenderKind.ofTag key.kind.tag).handler⟩ value) := by
  intro c s steady settled same shows
  obtain ⟨n, node, element⟩ := settled.element _ fills.hosts
  cases shown : (RenderKind.ofTag key.kind.tag).change? value with
  | some change =>
      obtain ⟨d', run, tended, carries⟩ := RenderKind.handler_content builtIn shown steady node
        (isContainer_of_isElement element)
      have written := settled.tended steady fills tended
      rw [BoundBinding.strokes_of_some (b := ⟨key, .content x, _⟩) rfl shown]
      refine ⟨_, BoundBinding.apply_ok run, written,
        shows.refill apart steady settled written.settled fills place tended carries, ?_⟩
      rw [Canvas.entries_cons]
      rfl
  | none =>
      have refused := congrFun (RenderKind.handler_refuses (g := f x) builtIn shown) c.document
      rw [BoundBinding.strokes_of_none (b := ⟨key, .content x, _⟩) rfl shown]
      refine ⟨_, BoundBinding.apply_refused refused, .refl steady settled, ?_, ?_⟩
      · rwa [Sketch.draw_report]
      · rw [reports_report, Canvas.entries_cons, Canvas.entries_cons]
        exact congrArg (· ++ _) (List.append_nil _)

theorem draws_apply (apart : i.Apart f) (mem : b ∈ i.bindings)
    (standard : Registry.standard.get? b.binding.kind.tag = some b.handler) (value : Value) :
    Rendering.Draws i f v ((b.map f).apply value) (b.strokes value) := by
  have listed : b.map f ∈ (i.map f).bindings := by
    rw [Instance.map, BindingTable.mem_map]
    exact ⟨b, mem, rfl⟩
  have place := target_mem_places mem
  obtain ⟨binding, target, handler⟩ := b
  obtain ⟨known, builtIn⟩ := RenderKind.handler_ofTag standard
  dsimp only at known builtIn
  subst known
  cases target with
  | attr x name => exact draws_attr apart place builtIn value
  | content x => exact draws_content apart place (.inl ⟨_, listed, rfl⟩) builtIn value

/-- Writing the values of keys draws what the bindings do. -/
theorem draws_bindings (apart : i.Apart f)
    (standard : ∀ b ∈ i.bindings, Registry.standard.get? b.binding.kind.tag = some b.handler)
    (v : View) (scope : Scope) :
    Rendering.Draws i f v (Rendering.means.writeBindings (i.map f) scope) (i.strokes scope) := by
  rw [Means.writeBindings_eq, keys_map]
  refine .forM _ fun key _ => ?_
  rw [Means.writeKey]
  cases scope.resolve? key with
  | none => exact .nothing
  | some value =>
      dsimp only
      rw [bindingsFor_map]
      refine .forM_map fun b listed => ?_
      have mem := (BindingTable.mem_get.1 listed).1
      exact draws_apply apart mem (standard b mem) value

end Instance

/-! ## Rendering -/

namespace Pattern

variable {env : Environment} {i : Instance} {f : NodeId → NodeId} {v : View} {g : NodeId}

theorem Cast.parts {keep : Bool} : {p : Pattern} → {m : Mold} → p.Cast keep v m →
    CastAll keep v p.parts m.parts
  | ⟨_, _, _⟩, _, h => h.2.2

/-- Rendering a pattern draws the script of its mold, on any copy at whose nodes the parts are
wired and cast outside. -/
def Drawn (env : Environment) (p : Pattern) (m : Mold) : Prop :=
  ∀ f v scope, WiredAll v p.parts → CastAll env.keepMarkers v p.parts m.parts →
    m.live.Apart f →
    (∀ b ∈ m.live.bindings, Registry.standard.get? b.binding.kind.tag = some b.handler) →
    Rendering.Draws m.live f v (p.render env scope (m.live.map f)) (m.strokes scope)

/-- What an item adds is what the script of the part makes of its mold. -/
theorem draws_item (standard : env.handlers = .standard) {part : Pattern} {m : Mold}
    (wired : part.Wired v) (cast : part.Cast env.keepMarkers v m) (drawn : part.Drawn env m)
    (apart : i.Apart f) (mem : g ∈ i.places) (fills : (i.map f).Fills (f g)) (scope : Scope) :
    Rendering.Draws i f v
      (Rendering.means.addCopy env (f g) part fun copy => part.render env scope copy)
      (m.itemStrokes g (m.strokes scope)) := by
  intro c s steady settled same shows
  have keeps : ∀ {x n}, v x = some n → c.document.view x = some n := by
    intro x n node
    rw [← same] at node
    exact (outside_eq_some.1 node).1
  obtain ⟨h, d₁, made, copied, new, confined⟩ :=
    env.instantiate_cast standard wired cast keeps steady
  have outer : ∀ {x n}, v x = some n → outside [h m.live.root] d₁.view x = some n := by
    intro x n node
    refine outside_eq_some.2 ⟨new.grown.others (by simp) (keeps node), ?_⟩
    rw [inside_singleton]
    exact new.grown.not_below_new steady new.fresh (keeps node)
  obtain ⟨c₂, rendered, written, ⟨T, read, drawing⟩, entries⟩ :=
    drawn h _ scope (wired.parts.outside_new steady new keeps)
      (CastAll.mono outer _ _ cast.parts) copied.apart copied.standard
      { c with document := d₁ } m.sketch new.grown.steady new.settled rfl copied.shows
  obtain ⟨n, host, element⟩ := settled.element _ fills.hosts
  obtain ⟨d₃, d', moved, released, tended, carries⟩ := new.pour confined written steady host
    (isContainer_of_isElement element)
  have after := settled.tended steady fills tended
  have items : T.children.map shape = (m.sketch.draw (m.strokes scope)).children.map shape := by
    rw [← drawing, children_map, List.map_map, Function.comp_def]
    simp only [shape_map]
  refine ⟨{ c₂ with document := d' }, Rendering.addCopy_ok made rendered moved released, after, ?_, ?_⟩
  · rw [Mold.itemStrokes, Sketch.draw_append, Sketch.draw_report]
    refine shows.refill apart steady settled after.settled fills mem tended fun content old => ?_
    rw [← items]
    exact carries content _ old (.of_tree written.steady.forest read)
  · rw [Mold.itemStrokes, reports_append, reports_report]
    exact entries.trans (congrArg _ (List.append_nil _).symm)

/-- A region is emptied. -/
theorem draws_discard (apart : i.Apart f) (mem : g ∈ i.places) (fills : (i.map f).Fills (f g)) :
    Rendering.Draws i f v (Rendering.edit (discardChildren (f g))) [.change g (.set [])] := by
  intro c s steady settled _ shows
  obtain ⟨n, host, -⟩ := settled.element _ fills.hosts
  obtain ⟨d', run, host', tended⟩ := discardChildren_tended steady host
  have after := settled.tended steady fills tended
  exact ⟨_, Rendering.edit_ok run, after,
    shows.refill apart steady settled after.settled fills mem tended fun _ _ =>
      .nothing host' rfl, (List.append_nil _).symm⟩

/-- A region draws what it does with the value of its source, if its items draw what they add. -/
theorem draws_region (apart : i.Apart f) {region : Region} (mem : region.container ∈ i.places)
    (fills : (i.map f).Fills (f region.container)) (value : Option Value)
    {add : Value → Rendering Unit} {out : Value → List Stroke}
    (each : ∀ item, Rendering.Draws i f v (add item) (out item)) :
    Rendering.Draws i f v (Rendering.means.writeRegion (region.map f) value add)
      (region.strokes value out) := by
  cases value with
  | none => exact .nothing
  | some value =>
      cases value with
      | null => exact draws_discard apart mem fills
      | array items =>
          exact (draws_discard apart mem fills).seq (.forM items fun item _ => each item)
      | _ => exact .note _

theorem draws_regions (standard : env.handlers = .standard) (apart : i.Apart f) (scope : Scope)
    {parts : List Pattern} {molds : List Mold} (wired : WiredAll v parts)
    (cast : CastAll env.keepMarkers v parts molds)
    (drawn : ∀ part ∈ parts, ∀ m, part.Drawn env m)
    {regions : List Region} (own : ∀ r ∈ regions, r ∈ i.regions) :
    Rendering.Draws i f v (Rendering.means.writeRegions env scope (regions.map (·.map f)) parts)
      (Mold.regionStrokes scope regions molds) := by
  induction parts generalizing regions molds with
  | nil =>
      cases molds with
      | nil =>
          rw [Means.writeRegions, Mold.regionStrokes]
          exact .nothing
      | cons m molds => exact cast.elim
  | cons part parts ih =>
      cases molds with
      | nil => exact cast.elim
      | cons m molds =>
          cases regions with
          | nil =>
              rw [List.map_nil, Means.writeRegions, Mold.regionStrokes]
              exact .nothing
          | cons region regions =>
              have mem : region.container ∈ i.places :=
                List.mem_append_right _ (List.mem_map_of_mem (own region (by simp)))
              have fills : (i.map f).Fills (f region.container) :=
                .inr ⟨_, List.mem_map_of_mem (own region (by simp)), rfl⟩
              have others : Rendering.Draws i f v
                  (Rendering.means.writeRegions env scope (regions.map (·.map f)) parts)
                  (Mold.regionStrokes scope regions molds) :=
                ih wired.2 cast.2 (fun p mem => drawn p (by simp [mem])) fun r mem =>
                  own r (by simp [mem])
              rw [List.map_cons, Means.writeRegions, Mold.regionStrokes]
              refine (draws_region apart mem fills _ fun item => ?_).seq others
              exact draws_item standard wired.1 cast.1 (drawn part (by simp) m) apart mem fills _

mutual

theorem drawn (standard : env.handlers = .standard) : (p : Pattern) → ∀ m, p.Drawn env m
  | ⟨_, _, parts⟩, m => fun f v scope wired cast apart handlers => by
      rw [render, Means.write, Mold.strokes_eq]
      exact (m.live.draws_bindings apart handlers v scope).seq
        (draws_regions standard apart scope wired cast (drawn_all standard parts) fun _ mem => mem)

theorem drawn_all (standard : env.handlers = .standard) :
    (ps : List Pattern) → ∀ p ∈ ps, ∀ m, p.Drawn env m
  | [] => List.forall_mem_nil _
  | p :: ps => List.forall_mem_cons.2 ⟨drawn standard p, drawn_all standard ps⟩

end

end Pattern

end Stencil
