import Stencil.Proofs.Render.Chronicle
import Stencil.Proofs.Render.Clarity
import Stencil.Proofs.Render.Inking

/-! # Renderings leave no residue

A context that settles all that earlier ones have settled hides them: what the document shows is
what the context shows in a copy into which nothing has been rendered.
-/

namespace Stencil

open Markup NodeTree Document Edit View

/-! ## What a script does where -/

namespace RenderKind

/-- Whether values are shown as texts. -/
def isText : RenderKind → Bool
  | escaped | function => true
  | _ => false

variable {kind : RenderKind} {value : Value} {c : Change}

theorem isText_change (h : kind.change? value = some c) : c.isText = kind.isText := by
  cases kind with
  | custom tag => cases h
  | escaped | literal | numeral | fragment =>
      cases h
      rfl
  | function =>
      obtain ⟨result, -, rfl⟩ := Option.map_eq_some_iff.1 h
      rfl

theorem isSet_change (h : kind.change? value = some c) (plain : kind.isText = false) :
    c.isSet = true := by
  cases kind with
  | custom tag => cases h
  | escaped | function => cases plain
  | literal | numeral | fragment =>
      cases h
      rfl

/-- All kinds but one can show any value. -/
theorem exists_change {old : Value} (value : Value) (h : kind.change? old = some c)
    (function : kind = .function → old.isFunction = true → value.isFunction = true) :
    ∃ c', kind.change? value = some c' := by
  cases kind with
  | custom tag => cases h
  | escaped | literal | numeral | fragment => exact ⟨_, rfl⟩
  | function =>
      obtain ⟨result, called, -⟩ := Option.map_eq_some_iff.1 h
      have callable : old.isFunction = true := by
        cases old with
        | function identity result => rfl
        | _ => cases called
      cases value with
      | function identity result => exact ⟨_, rfl⟩
      | _ => cases function rfl callable

end RenderKind

/-- Whether a region shows a value. -/
def Value.isIterable : Value → Bool
  | null | array _ => true
  | _ => false

/-- Reports write and change nothing. -/
theorem mem_reports {k : Stroke} {entries : List LogEntry} (mem : k ∈ entries.map Stroke.report) :
    ∃ entry, k = .report entry :=
  (List.mem_map.1 mem).imp fun _ facts => facts.2.symm

namespace BoundBinding

variable {b : BoundBinding} {value v : Value} {x : NodeId} {name : String} {c : Change}

/-- A stroke of a binding writes to its attribute, changes its content or reports. -/
theorem mem_strokes {k : Stroke} (mem : k ∈ b.strokes value) :
    (∃ x name, b.target = .attr x name ∧ k = .write x name (b.kind.attributeValue value)) ∨
      (∃ x c, b.target = .content x ∧ b.kind.change? value = some c ∧ k = .change x c) ∨
      ∃ entry, k = .report entry := by
  cases target : b.target with
  | attr x name =>
      rw [strokes_of_attr target] at mem
      exact .inl ⟨x, name, rfl, List.mem_singleton.1 mem⟩
  | content x =>
      cases shown : b.kind.change? value with
      | some c =>
          rw [strokes_of_some target shown] at mem
          exact .inr (.inl ⟨x, c, rfl, rfl, List.mem_singleton.1 mem⟩)
      | none =>
          rw [strokes_of_none target shown] at mem
          exact .inr (.inr (mem_reports mem))

theorem target_of_write (mem : .write x name v ∈ b.strokes value) : b.target = .attr x name := by
  rcases mem_strokes mem with ⟨y, own, target, same⟩ | ⟨y, c, -, -, same⟩ | ⟨entry, same⟩ <;> cases same
  exact target

theorem target_of_change (mem : .change x c ∈ b.strokes value) :
    b.target = .content x ∧ b.kind.change? value = some c := by
  rcases mem_strokes mem with ⟨y, own, -, same⟩ | ⟨y, own, target, shown, same⟩ | ⟨entry, same⟩ <;>
    cases same
  exact ⟨target, shown⟩

end BoundBinding

theorem Instance.mem_strokes {i : Instance} {scope : Scope} {k : Stroke} :
    k ∈ i.strokes scope ↔ ∃ b ∈ i.bindings, ∃ value,
      scope.resolve? b.binding.key = some value ∧ k ∈ b.strokes value := by
  simp only [strokes, List.mem_flatMap]
  constructor
  · rintro ⟨key, -, mem⟩
    split at mem
    · cases mem
    · rename_i value found
      obtain ⟨b, listed, inside⟩ := List.mem_flatMap.1 mem
      obtain ⟨own, rfl⟩ := BindingTable.mem_get.1 listed
      exact ⟨b, own, value, found, inside⟩
  · rintro ⟨b, mem, value, found, inside⟩
    refine ⟨b.binding.key, BindingTable.key_mem_keys mem, ?_⟩
    rw [found]
    exact List.mem_flatMap.2 ⟨b, BindingTable.mem_get.2 ⟨mem, rfl⟩, inside⟩

namespace Mold

variable {m : Mold} {scope : Scope} {regions : List Region} {parts : List Mold} {x host : NodeId}
  {name : String} {v : Value} {c : Change}

theorem mem_itemStrokes {script : List Stroke} {k : Stroke} (mem : k ∈ m.itemStrokes host script) :
    (∃ entry, k = .report entry) ∨
      k = .change host (.add ((m.sketch.draw script).children.map shape)) :=
  (List.mem_append.1 mem).imp mem_reports List.mem_singleton.1

/-- Reports change nothing, at no place. -/
theorem changesAt_reports (entries : List LogEntry) (x : NodeId) :
    changesAt (entries.map .report) x = [] := by
  refine changesAt_eq_nil.2 fun c mem => ?_
  obtain ⟨entry, same⟩ := mem_reports mem
  cases same

/-- A region writes nothing, changes only the content of its container, that only where there is
something to repeat, and gives the content up first. -/
theorem regionStrokes_cons (scope : Scope) (region : Region) (regions : List Region) (part : Mold)
    (parts : List Mold) :
    ∃ script, regionStrokes scope (region :: regions) (part :: parts) =
        script ++ regionStrokes scope regions parts ∧
      (∀ k ∈ script, (∃ entry, k = .report entry) ∨ ∃ c, k = .change region.container c) ∧
      (changesAt script region.container ≠ [] ↔
        (scope.resolve? region.iteration.source).any Value.isIterable = true) ∧
      Change.Anew (changesAt script region.container) := by
  rw [regionStrokes]
  refine ⟨_, rfl, ?_⟩
  unfold Region.strokes
  cases scope.resolve? region.iteration.source with
  | none => simp [changesAt, Change.Anew]
  | some value =>
      cases value with
      | null =>
          dsimp only
          rw [changesAt_cons]
          exact ⟨fun k mem => .inr ⟨_, List.mem_singleton.1 mem⟩, by simp [Value.isIterable],
            fun c head => by cases head; rfl⟩
      | array items =>
          dsimp only
          rw [changesAt_cons]
          refine ⟨fun k mem => ?_, by simp [Value.isIterable], fun c head => by cases head; rfl⟩
          rcases List.mem_cons.1 mem with rfl | mem
          · exact .inr ⟨_, rfl⟩
          · obtain ⟨item, -, inside⟩ := List.mem_flatMap.1 mem
            exact (mem_itemStrokes inside).imp_right fun same => ⟨_, same⟩
      | _ =>
          dsimp only
          rw [changesAt_reports]
          exact ⟨fun k mem => .inl (mem_reports mem), by simp [Value.isIterable], .nothing⟩

theorem write_not_mem_regionStrokes (regions : List Region) (parts : List Mold) :
    .write x name v ∉ regionStrokes scope regions parts := by
  induction parts generalizing regions with
  | nil => simp [regionStrokes]
  | cons part parts ih =>
      cases regions with
      | nil => simp [regionStrokes]
      | cons region regions =>
          obtain ⟨script, same, only, -⟩ := regionStrokes_cons scope region regions part parts
          rw [same]
          refine fun mem => (List.mem_append.1 mem).elim (fun own => ?_) (ih regions)
          rcases only _ own with ⟨entry, same⟩ | ⟨c, same⟩ <;> cases same

/-- Regions change the content of their containers where there is something to repeat. -/
theorem exists_change_regionStrokes (scope : Scope) (regions : List Region) (parts : List Mold) :
    (∃ c, .change x c ∈ regionStrokes scope regions parts) ↔
      ∃ pair ∈ regions.zip parts, pair.1.container = x ∧
        (scope.resolve? pair.1.iteration.source).any Value.isIterable = true := by
  induction parts generalizing regions with
  | nil => simp [regionStrokes]
  | cons part parts ih =>
      cases regions with
      | nil => simp [regionStrokes]
      | cons region regions =>
          obtain ⟨script, same, only, iterable, -⟩ :=
            regionStrokes_cons scope region regions part parts
          have first : (∃ c, .change x c ∈ script) ↔ region.container = x ∧
              (scope.resolve? region.iteration.source).any Value.isIterable = true := by
            rw [← iterable]
            constructor
            · rintro ⟨c, mem⟩
              rcases only _ mem with ⟨entry, same⟩ | ⟨c', same⟩
              · cases same
              · cases same
                exact ⟨rfl, List.ne_nil_of_mem (mem_changesAt.2 mem)⟩
            · rintro ⟨rfl, some⟩
              obtain ⟨c, mem⟩ := List.exists_mem_of_ne_nil _ some
              exact ⟨c, mem_changesAt.1 mem⟩
          rw [same, List.zip_cons_cons, List.exists_mem_cons_iff, ← first, ← ih regions]
          simp only [List.mem_append, exists_or]

/-- Regions give the content up first. -/
theorem anew_regionStrokes (x : NodeId) (scope : Scope) (regions : List Region)
    (parts : List Mold) : Change.Anew (changesAt (regionStrokes scope regions parts) x) := by
  induction parts generalizing regions with
  | nil =>
      rw [regionStrokes]
      exact .nothing
  | cons part parts ih =>
      cases regions with
      | nil =>
          rw [regionStrokes]
          exact .nothing
      | cons region regions =>
          obtain ⟨script, same, only, -, anew⟩ :=
            regionStrokes_cons scope region regions part parts
          rw [same, changesAt_append]
          refine .append ?_ (ih regions)
          by_cases own : region.container = x
          · exact own ▸ anew
          · rw [changesAt_eq_nil.2 fun c mem => ?_]
            · exact .nothing
            · rcases only _ mem with ⟨entry, same⟩ | ⟨c', same⟩
              · cases same
              · cases same
                exact own rfl

end Mold

/-! ## What is forgotten -/

/-- A context settles what another one has settled: each key that has a value there has one here,
functions that are called there are functions here, and what is repeated there is given up here. -/
structure Instance.Covers (i : Instance) (before now : Scope) : Prop where
  keys : ∀ key ∈ i.keys, (before.resolve? key).isSome = true → (now.resolve? key).isSome = true
  functions : ∀ b ∈ i.bindings, b.kind = .function → b.target = .content b.target.node →
    (before.resolve? b.binding.key).any Value.isFunction = true →
    (now.resolve? b.binding.key).any Value.isFunction = true
  sources : ∀ r ∈ i.regions, (before.resolve? r.iteration.source).any Value.isIterable = true →
    (now.resolve? r.iteration.source).any Value.isIterable = true

namespace Instance.Covers

variable {i : Instance} {before now : Scope} {f : NodeId → NodeId}

/-- Where the copy is does not matter. -/
theorem of_map (h : (i.map f).Covers before now) : i.Covers before now where
  keys := by
    have keys := h.keys
    rwa [keys_map] at keys
  functions b mem kind target := by
    have listed : b.map f ∈ (i.map f).bindings := by
      rw [Instance.map, BindingTable.mem_map]
      exact ⟨b, mem, rfl⟩
    refine h.functions (b.map f) listed kind ?_
    obtain ⟨binding, target', handler⟩ := b
    cases target' with
    | content x => rfl
    | attr x name => cases target
  sources r mem := h.sources (r.map f) (List.mem_map_of_mem mem)

/-- A context settles what it settles itself. -/
theorem refl (i : Instance) (scope : Scope) : i.Covers scope scope :=
  ⟨fun _ _ => id, fun _ _ _ _ => id, fun _ _ => id⟩

end Instance.Covers

namespace Mold

variable {m : Mold} {before now : Scope} {x : NodeId} {name : String} {v : Value} {c : Change}

theorem mem_strokes {k : Stroke} {scope : Scope} : k ∈ m.strokes scope ↔
    k ∈ m.live.strokes scope ∨ k ∈ regionStrokes scope m.live.regions m.parts := by
  rw [strokes_eq]
  exact List.mem_append

/-- What has been written is written again. -/
theorem exists_write (covers : m.live.Covers before now) (mem : .write x name v ∈ m.strokes before) :
    ∃ b ∈ m.live.bindings, b.target = .attr x name ∧ ∃ v', .write x name v' ∈ m.strokes now := by
  rcases mem_strokes.1 mem with own | other
  · obtain ⟨b, listed, value, found, inside⟩ := Instance.mem_strokes.1 own
    have target := BoundBinding.target_of_write inside
    obtain ⟨value', found'⟩ := Option.isSome_iff_exists.1 <|
      covers.keys b.binding.key (BindingTable.key_mem_keys listed) (by rw [found]; rfl)
    exact ⟨b, listed, target, _, mem_strokes.2 (.inl (Instance.mem_strokes.2
      ⟨b, listed, value', found', BoundBinding.strokes_of_attr target ▸ List.mem_singleton_self _⟩))⟩
  · exact (write_not_mem_regionStrokes _ _ other).elim

/-- What has changed changes again. -/
theorem exists_change (covers : m.live.Covers before now) (mem : .change x c ∈ m.strokes before) :
    m.live.Fills x ∧ ∃ c', .change x c' ∈ m.strokes now := by
  rcases mem_strokes.1 mem with own | other
  · obtain ⟨b, listed, value, found, inside⟩ := Instance.mem_strokes.1 own
    obtain ⟨target, shown⟩ := BoundBinding.target_of_change inside
    obtain ⟨value', found'⟩ := Option.isSome_iff_exists.1 <|
      covers.keys b.binding.key (BindingTable.key_mem_keys listed) (by rw [found]; rfl)
    obtain ⟨c', shown'⟩ := RenderKind.exists_change value' shown fun kind old => by
      have functions := covers.functions b listed kind (by rw [target]; rfl)
      rw [found, found'] at functions
      exact functions old
    exact ⟨.inl ⟨b, listed, target⟩, c', mem_strokes.2 (.inl (Instance.mem_strokes.2
      ⟨b, listed, value', found',
        BoundBinding.strokes_of_some target shown' ▸ List.mem_singleton_self _⟩))⟩
  · obtain ⟨pair, zipped, place, iterable⟩ := (exists_change_regionStrokes _ _ _).1 ⟨c, other⟩
    have listed := (List.of_mem_zip zipped).1
    obtain ⟨c', again⟩ := (exists_change_regionStrokes now _ _).2
      ⟨pair, zipped, place, covers.sources _ listed iterable⟩
    exact ⟨.inr ⟨_, listed, place⟩, c', mem_strokes.2 (.inr again)⟩

/-- At a place that shows texts nothing else happens. -/
theorem Clear.texts (clear : m.Clear) {b : BoundBinding} (listed : b ∈ m.live.bindings)
    (target : b.target = .content x) (text : b.kind.isText = true) {scope : Scope}
    (mem : .change x c ∈ m.strokes scope) : c.isText = true := by
  obtain ⟨alone, regions⟩ := clear.single b listed target
  rcases mem_strokes.1 mem with own | other
  · obtain ⟨b', listed', value, -, inside⟩ := Instance.mem_strokes.1 own
    obtain ⟨target', shown⟩ := BoundBinding.target_of_change inside
    rw [RenderKind.isText_change shown, BoundBinding.kind, alone b' listed' target']
    exact text
  · obtain ⟨pair, zipped, place, -⟩ := (exists_change_regionStrokes _ _ _).1 ⟨c, other⟩
    exact (regions _ (List.of_mem_zip zipped).1 place).elim

/-- At a place that shows no texts the content is given up first. -/
theorem anew_strokes (plain : ∀ b ∈ m.live.bindings, b.target = .content x → b.kind.isText = false)
    (scope : Scope) : Change.Anew (changesAt (m.strokes scope) x) := by
  rw [strokes_eq, changesAt_append]
  refine .append (fun c head => ?_) (anew_regionStrokes x scope m.live.regions m.parts)
  have mem := mem_changesAt.1 (List.mem_of_mem_head? head)
  obtain ⟨b, listed, value, -, inside⟩ := Instance.mem_strokes.1 mem
  obtain ⟨target, shown⟩ := BoundBinding.target_of_change inside
  exact RenderKind.isSet_change shown (plain b listed target)

theorem mem_script {k : Stroke} {past : List Value} :
    k ∈ m.script past ↔ ∃ context ∈ past, k ∈ m.strokes (.ofContext context) :=
  List.mem_flatMap

/-- A context hides those that it covers. -/
theorem draw_forgets (clear : m.Clear) {past : List Value} {context : Value}
    (covers : ∀ old ∈ past, m.live.Covers (.ofContext old) (.ofContext context)) :
    m.sketch.draw (m.script past ++ m.strokes (.ofContext context)) =
      m.sketch.draw (m.strokes (.ofContext context)) := by
  -- Each stroke is one of a context that is covered.
  have split : ∀ {k}, k ∈ m.script past ++ m.strokes (.ofContext context) → ∃ scope,
      m.live.Covers scope (.ofContext context) ∧ k ∈ m.strokes scope := by
    intro k mem
    rcases List.mem_append.1 mem with mem | mem
    · obtain ⟨old, listed, inside⟩ := mem_script.1 mem
      exact ⟨_, covers old listed, inside⟩
    · exact ⟨_, .refl .., mem⟩
  refine Sketch.draw_forgets clear.once (fun x c mem q t inside label => ?_)
    fun q t x inside label => ⟨?_, ?_⟩
  · obtain ⟨scope, covered, mem⟩ := split mem
    exact clear.empty (exists_change covered mem).1 inside label
  · rw [writesAt_append]
    refine NodeData.puts_forget Marker.host (fun w mem => ?_) fun w mem => ?_ <;> obtain ⟨name, v⟩ := w
    · obtain ⟨old, listed, mem⟩ := mem_script.1 (mem_writesAt.1 mem)
      obtain ⟨-, -, -, v', again⟩ := exists_write (covers old listed) mem
      exact List.mem_map.2 ⟨(name, v'), mem_writesAt.2 again, rfl⟩
    · rw [← writesAt_append, mem_writesAt] at mem
      obtain ⟨scope, covered, mem⟩ := split mem
      obtain ⟨b, listed, target, -⟩ := exists_write covered mem
      exact clear.present b listed target inside label
  · refine contentAt_forget (fun none => changesAt_eq_nil.2 fun c mem => ?_) ?_
    · obtain ⟨old, listed, mem⟩ := mem_script.1 mem
      obtain ⟨-, c', again⟩ := exists_change (covers old listed) mem
      exact changesAt_eq_nil.1 none c' again
    · by_cases texts : ∃ b ∈ m.live.bindings, b.target = .content x ∧ b.kind.isText = true
      · obtain ⟨b, listed, target, text⟩ := texts
        refine .inl fun c mem => ?_
        obtain ⟨scope, -, mem⟩ := split (mem_changesAt.1 mem)
        exact clear.texts listed target text mem
      · refine .inr (anew_strokes (fun b listed target => ?_) _)
        by_contra text
        exact texts ⟨b, listed, target, by simpa using text⟩

end Mold

/-! ## Documents -/

/-- Two nodes of two documents show the same: the trees are the same up to the numbers of nodes. -/
def Document.Alike (d : Document) (x : NodeId) (e : Document) (y : NodeId) : Prop :=
  ∃ T U, d.tree x = .ok T ∧ e.tree y = .ok U ∧ T.shape = U.shape

namespace Document.Alike

variable {d e : Document} {x y : NodeId}

/-- What shows the same has the same markup. -/
theorem serialize (h : d.Alike x e y) : d.serialize x = e.serialize y := by
  obtain ⟨T, U, read, read', same⟩ := h
  simp only [Document.serialize, read, read']
  exact congrArg Except.ok (print_eq_of_shape same false)

theorem of_reflects {s t : Template} {m : Mold} {A B : List Stroke} (h : s.Reflects d m A)
    (k : t.Reflects e m B) (same : m.sketch.draw A = m.sketch.draw B) :
    d.Alike s.live.root e t.live.root := by
  obtain ⟨T, read, shape⟩ := h.exists_tree
  obtain ⟨U, read', shape'⟩ := k.exists_tree
  exact ⟨T, U, read, read', by rw [shape, shape', same]⟩

end Document.Alike

/-- The mold of a template is clear if the tree that is copied is exact. -/
theorem Held.clear {d : Document} {ts : List Template} {tops : List NodeId} {t : Template} {m : Mold}
    {keep : Bool} (h : Held d ts tops) (mem : t ∈ ts) (cast : t.pattern.Cast keep d.view m)
    (exact : ∀ P, d.tree t.pattern.prototype = .ok P → P.Exact t.pattern.compiled.slots) :
    m.Clear := by
  have wired := h.wired t mem
  obtain ⟨environment, ⟨compiled, prototype, parts⟩, live⟩ := t
  obtain ⟨⟨p, P, stands, label, same⟩, -⟩ := cast
  obtain ⟨⟨P', ⟨q, stored, -⟩, label', tidy, -⟩, -⟩ := wired
  obtain rfl := stands_unique P' (stored.mono fun _ _ node => (outside_eq_some.1 node).1) stands
    (label'.trans label.symm)
  have read := tree_of_stands stands (h.steady.forest.nodup_labels _ p stands)
  rw [same]
  exact Mold.clear_of tidy (exact P' (label ▸ read)) keep m.parts

/-- A template that goes back to a compiled one is exact if the markup of that is. -/
theorem Chronicle.exact_of_source {d : Document} {es : List Member} {e : Member}
    {c : CompiledTemplate} (h : Chronicle .standard d es) (mem : e ∈ es) (source : e.source = some c)
    (exact : ∀ t, CompiledTemplate.treeOf? c.markup = some t → t.Exact c.slots) :
    ∀ P, d.tree e.template.pattern.prototype = .ok P →
      P.Exact e.template.pattern.compiled.slots := by
  intro P read
  obtain ⟨tops, held, -⟩ := h.stage.held
  obtain ⟨m, reflects, mold⟩ := h.keeps e mem
  obtain ⟨-, rfl⟩ := mold c source
  have cast := reflects.cast
  obtain ⟨⟨environment, ⟨compiled, prototype, parts⟩, live⟩, origin, past⟩ := e
  obtain ⟨slots, skeleton, expression⟩ := c
  obtain ⟨⟨p, P', stands, rfl, same⟩, -⟩ := cast
  have again := tree_of_stands stands (held.steady.forest.nodup_labels _ p stands)
  obtain rfl : P = P' := Except.ok.inj (read.symm.trans again)
  rw [CompiledTemplate.mold] at same
  obtain ⟨-, trees, rfl, -⟩ := Mold.mk.inj same
  have shape := congrArg shape trees
  rw [shape_number, shape_number] at shape
  rw [← exact_shape, ← shape, exact_shape]
  cases tree : CompiledTemplate.treeOf? skeleton.markup with
  | some t => exact exact t tree
  | none => simp [NodeTree.Exact, hostNodes]

/-- Rendering leaves no residue: where a context settles all that the contexts rendered before
have settled, the template shows what a fresh copy of it shows when only this context is rendered
into it. Rendering it once more changes nothing. -/
theorem Chronicle.render_forgets {d : Document} {es : List Member} {e : Member}
    (h : Chronicle .standard d es) (mem : e ∈ es) (context : Value)
    (exact : ∀ P, d.tree e.template.pattern.prototype = .ok P →
      P.Exact e.template.pattern.compiled.slots)
    (covers : ∀ old ∈ e.past,
      e.template.live.Covers (.ofContext old) (.ofContext context)) :
    ∃ d₁ d₂ s d₃ d₄ happened happened₂ happened₄,
      Rendering.run (e.template.render context) d = (.ok e.template.live.root, d₁, happened) ∧
      e.template.clone d = .ok s d₃ ∧
      Rendering.run (s.render context) d₃ = (.ok s.live.root, d₄, happened₄) ∧
      d₁.Alike e.template.live.root d₄ s.live.root ∧
      d₁.serialize e.template.live.root = d₄.serialize s.live.root ∧
      Rendering.run (e.template.render context) d₁ = (.ok e.template.live.root, d₂, happened₂) ∧
      d₂.Alike e.template.live.root d₁ e.template.live.root := by
  obtain ⟨tops, held, -⟩ := h.stage.held
  have listed : e.template ∈ es.map Member.template := List.mem_map_of_mem mem
  obtain ⟨m, reflects, -⟩ := h.keeps e mem
  have clear := held.clear listed reflects.cast exact
  obtain ⟨f, live, -⟩ := reflects.copy
  have covered : ∀ old ∈ e.past, m.live.Covers (.ofContext old) (.ofContext context) :=
    fun old past => .of_map (f := f) (live ▸ covers old past)
  obtain ⟨d₁, happened, run, first, -⟩ := held.draw listed reflects context
  obtain ⟨d', events, again, held₁, -⟩ := held.render listed context
  rw [run] at again
  cases again
  obtain ⟨d₂, happened₂, run₂, second, -⟩ := held₁.draw listed first context
  obtain ⟨s, d₃, copied, -, -, -, held₃, blank⟩ := held.copy listed reflects
  obtain ⟨d₄, happened₄, run₄, fresh, -⟩ := held₃.draw (List.mem_cons_self ..) blank context
  have hidden := Mold.draw_forgets clear covered
  have alike := Document.Alike.of_reflects first fresh hidden
  refine ⟨d₁, d₂, s, d₃, d₄, happened, happened₂, happened₄, run, copied, run₄, alike,
    alike.serialize, run₂, .of_reflects second first ?_⟩
  -- The context covers itself, and so it is hidden by the same context that comes once more.
  have again : ∀ old ∈ e.past ++ [context],
      m.live.Covers (.ofContext old) (.ofContext context) := by
    refine List.forall_mem_append.2 ⟨covered, List.forall_mem_singleton.2 (.refl ..)⟩
  rw [hidden, ← Mold.draw_forgets clear again, Mold.script_append]

namespace CompiledTemplate

theorem live_sampleList (keep : Bool) : (sampleList.mold keep).live = {
    root := ⟨0⟩
    bindings := .ofList [{
      binding := { kind := .escaped, key := "class", attr := some "class" }
      target := .attr ⟨0⟩ "class"
      handler := RenderKind.escaped.handler }]
    regions := [{
      container := ⟨0⟩
      iteration := { source := "items", itemName := some "item" } }] } := by
  have tree : treeOf? sampleList.skeleton.markup = some _ := treeOf?_sampleList
  rw [sampleList, mold] at *
  dsimp only at tree
  rw [tree]
  rfl

theorem exact_sampleList : ∀ t, treeOf? sampleList.markup = some t → t.Exact sampleList.slots := by
  intro t tree
  cases tree.symm.trans treeOf?_sampleList
  intro pair mem
  cases List.mem_singleton.1 mem
  exact ⟨by decide, by decide⟩

end CompiledTemplate

open CompiledTemplate in
/-- A list has shown two items and is to show none, and another class. -/
theorem Chronicle.render_forgets_list :
    let old : Value := .object [("class", .string "a"), ("items", .array [.string "b", .null])]
    let context : Value := .object [("items", .null), ("class", .string "b")]
    ∃ t d₁ d happened₁, Template.ofCompiled {} sampleList { name := "page" } = .ok t d₁ ∧
      Rendering.run (t.render old) d₁ = (.ok t.live.root, d, happened₁) ∧
      Chronicle .standard d [⟨t, some sampleList, [old]⟩] ∧
      (∀ P, d.tree t.pattern.prototype = .ok P → P.Exact t.pattern.compiled.slots) ∧
      (∀ past ∈ [old], t.live.Covers (.ofContext past) (.ofContext context)) ∧
      ∃ d₁ d₂ s d₃ d₄ happened happened₂ happened₄,
        Rendering.run (t.render context) d = (.ok t.live.root, d₁, happened) ∧
        t.clone d = .ok s d₃ ∧
        Rendering.run (s.render context) d₃ = (.ok s.live.root, d₄, happened₄) ∧
        d₁.Alike t.live.root d₄ s.live.root ∧
        d₁.serialize t.live.root = d₄.serialize s.live.root ∧
        Rendering.run (t.render context) d₁ = (.ok t.live.root, d₂, happened₂) ∧
        d₂.Alike t.live.root d₁ t.live.root := by
  intro old context
  have standard : ({} : Environment).handlers = .standard := rfl
  have ready : Ready { name := "page" } := ⟨accounted_empty "page" false, rfl⟩
  obtain ⟨t, d₁, -, -, -, built, -⟩ :=
    Template.render_of_ready standard shaped_sampleList old ready
  have first : Chronicle .standard d₁ [⟨t, some sampleList, []⟩] :=
    of_built (sound_empty "page" false) rfl standard tidy_sampleList built
  obtain ⟨tops, held, -⟩ := first.stage.held
  obtain ⟨d, happened₁, run, -⟩ := held.render (List.mem_singleton_self t) old
  have second : Chronicle .standard d [⟨t, some sampleList, [old]⟩] := first.rendered_one run
  have exact := second.exact_of_source (List.mem_singleton_self _) rfl exact_sampleList
  have shown : (Scope.resolve? (.ofContext (.object [("items", .null), ("class", .string "b")]))
      "class").isSome = true := by decide +kernel
  have given : (Scope.resolve? (.ofContext (.object [("items", .null), ("class", .string "b")]))
      "items").any Value.isIterable = true := by decide +kernel
  have covers : ∀ past ∈ [old], t.live.Covers (.ofContext past) (.ofContext context) := by
    intro past mem
    obtain rfl := List.mem_singleton.1 mem
    obtain ⟨m, reflects, mold⟩ := second.keeps _ (List.mem_singleton_self _)
    obtain ⟨-, rfl⟩ := mold sampleList rfl
    obtain ⟨f, live, -⟩ := reflects.copy
    dsimp only at live
    rw [live, live_sampleList]
    refine ⟨fun key mem _ => ?_, fun b mem kind _ _ => ?_, fun r mem _ => ?_⟩
    · obtain rfl : key = "class" := List.mem_singleton.1 mem
      exact shown
    · cases List.mem_singleton.1 mem
      cases kind
    · cases List.mem_singleton.1 mem
      exact given
  have forgotten := second.render_forgets (List.mem_singleton_self _) context exact covers
  exact ⟨t, d₁, d, happened₁, built, run, second, exact, covers, forgotten⟩

end Stencil
