import Stencil.Proofs.Document.Operation
import Stencil.Proofs.Markup.RoundTrip
import Stencil.Proofs.Render.Building
import Stencil.Proofs.Render.Shown

/-! # Rendering refines expansion

Rendering a context into a copy of a template, binding by binding and region by region, with
a copy for each item whose children are moved and which is given up, leaves the tree that the
template expands to.
-/

namespace Stencil

open Markup NodeTree Document Edit CompiledTemplate

variable {env : Environment} {w : View} {C : NodeTree NodeId} {scope : Scope}

theorem Offers.hollow {x : NodeId} (h : Offers C (.content x)) : ∃ s, Hollow C s ∧ s.label = x := by
  cases h with
  | content hollow => exact ⟨_, hollow, rfl⟩

/-- The sites of a copy are offered by it. -/
theorem offers_site {slots : List (List (Reference CompiledTemplate))}
    (fits : List.Forall₂ SlotFits (hostTrees C) slots) {site : Site}
    (mem : site ∈ sitesOf ((hostTrees C).map label) slots) : Offers C site.target := by
  obtain ⟨H, host, slot, -, fit, listed, own⟩ := fits_of_mem_sitesOf fits mem
  obtain ⟨⟨q, inside⟩, element⟩ := within_hostTrees none C H host
  obtain ⟨x, r⟩ := site
  dsimp only at listed own
  rw [Site.target_eq, own]
  cases attr : r.attr? with
  | none =>
      exact .content ⟨⟨q, inside⟩, element,
        fit.empty r listed (by rw [Reference.isContent_eq, attr]; rfl)⟩
  | some name =>
      obtain ⟨ordinary, present⟩ := fit.present name (List.mem_filterMap.2 ⟨r, listed, attr⟩)
      exact .attr inside present ordinary

namespace Pattern

/-- Rendering a pattern into a copy that nothing has been rendered into gives the expansion. -/
def Renders (env : Environment) (p : Pattern) : Prop :=
  ∀ {w C i D c} (scope : Scope), p.Sound w → i.Mounted env.keepMarkers p.compiled D C →
    Worn c.document w D C [] →
    ∃ c' E, p.render env scope i c = .ok () c' ∧ Worn c'.document w E C [] ∧
      (E.apply C).shape = p.compiled.expand env.keepMarkers scope.meaning

/-! ## Regions -/

/-- Every item adds the children of its own expansion to the content of the container. -/
theorem forM_items (standard : env.handlers = .standard) {part : Pattern}
    (renders : part.Renders env) (sound : part.Sound w) {s : NodeTree NodeId}
    (hollow : Hollow C s) (inner : Value → Scope) (items : List Value) :
    ∀ {c D}, Worn c.document w D C [] → ∃ c' us,
      (items.forM fun item => Rendering.means.addCopy env s.label part fun copy =>
        part.render env (inner item) copy) c = .ok () c' ∧
      Worn c'.document w (D.fill s.label us) C [] ∧
      us.map shape =
        items.flatMap fun item =>
          (part.compiled.expand env.keepMarkers (inner item).meaning).children := by
  induction items with
  | nil =>
      intro c D worn
      exact ⟨c, [], rfl, worn.fill_nothing hollow, rfl⟩
  | cons item items ih =>
      intro c D worn
      obtain ⟨i, d₁, E, B, made, copy, mounted⟩ :=
        env.instantiate_ok standard (Sound.mono worn.frame part sound) worn.ready
      obtain ⟨c₂, E₂, rendered, filled, shown⟩ :=
        renders (c := { document := d₁, history := c.history }) (inner item)
          (Sound.mono worn.frame part sound) mounted copy
      have beside := worn.beside filled
      have solid := filled.solid_children
      have top : i.root = (E₂.apply B).label := by rw [Dress.label_apply, mounted.root]
      generalize E₂.apply B = T at beside solid shown top
      obtain ⟨r, data, cs⟩ := T
      have root : i.root = r := top
      obtain ⟨d₃, moved, hosted⟩ := beside.moveChildren_beside hollow solid
      obtain ⟨d₄, released, left⟩ := hosted.release_beside
      obtain ⟨c', us, rest, all, shapes⟩ :=
        ih (c := { document := d₄, history := c₂.history }) left
      rw [Dress.fill_fill] at all
      refine ⟨c', cs ++ us, ?_, all, ?_⟩
      · rw [← root] at moved released
        exact (bind_ok (Rendering.addCopy_ok made rendered moved released)).trans rest
      · rw [List.map_append, List.flatMap_cons, shapes, ← shown, shape_node]
        rfl

/-- What a region fills. -/
def plotFilling (keep : Bool) (m : Meaning) (plot : Region × CompiledTemplate) : Target × Filling :=
  (.content plot.1.container,
    m.filling plot.1.iteration.source fun item =>
      (plot.2.expand keep (plot.1.iteration.meaningFor item m)).children)

theorem plotFilling_eq {keep : Bool} {m : Meaning} {site : Site} {plot : Region × CompiledTemplate}
    (found : site.plot? = some plot) :
    plotFilling keep m plot = (site.target, expandReference keep m site.2) := by
  obtain ⟨host, r⟩ := site
  obtain ⟨⟨container, ⟨source, itemName⟩⟩, t⟩ := plot
  obtain ⟨template, own, read⟩ := Site.plot?_eq_some found
  dsimp only at template own
  subst template own
  rw [expandReference, Iteration.parse?_eq_some_iff.1 read]
  cases itemName <;> rfl

/-- Rendering regions fills their containers. -/
theorem fills_regions (standard : env.handlers = .standard) (scope : Scope) :
    {parts : List Pattern} → {plots : List (Region × CompiledTemplate)} →
    (∀ p ∈ parts, p.Renders env) → SoundAll w parts → parts.map (·.compiled) = plots.map Prod.snd →
    (∀ plot ∈ plots, Offers C (.content plot.1.container)) →
    (plots.map fun plot => Target.content plot.1.container).Nodup →
    Rendering.Fills w C (Rendering.means.writeRegions env scope (plots.map Prod.fst) parts)
      (plots.map (plotFilling env.keepMarkers scope.meaning))
  | [], [], _, _, _, _, _ => Rendering.Fills.nothing (by simp)
  | part :: parts, (region, t) :: plots, renders, sound, same, offers, distinct => by
      obtain ⟨out, rest⟩ := List.nodup_cons.1 distinct
      obtain ⟨own, others⟩ := List.cons.inj same
      have further := fills_regions standard scope (fun p mem => renders p (by simp [mem])) sound.2
        others (fun plot mem => offers plot (by simp [mem])) rest
      obtain ⟨s, hollow, container⟩ := (offers (region, t) (by simp)).hollow
      dsimp only at container own
      have lead : ∀ body,
          Rendering.Fills w C body [plotFilling env.keepMarkers scope.meaning (region, t)] →
          Rendering.Fills w C (body >>= fun _ => Rendering.means.writeRegions env scope (plots.map Prod.fst) parts)
            (plotFilling env.keepMarkers scope.meaning (region, t) ::
              plots.map (plotFilling env.keepMarkers scope.meaning)) := by
        intro body fills
        refine fills.seq further fun T first second => out ?_
        rw [List.mem_singleton.1 first, List.map_map] at second
        exact second
      have empty : ∀ D : Dress, (∀ g ∈ [plotFilling env.keepMarkers scope.meaning (region, t)],
          D.received g.1 = {}) → D.content s.label = none := by
        intro D fresh
        rw [container]
        exact Dress.content_eq_none (fresh _ (List.mem_singleton.2 rfl))
      have discarded : ∀ {c D}, Worn c.document w D C [] → D.content s.label = none →
          Rendering.edit (discardChildren region.container) c = .ok () c := by
        intro c D worn fresh
        rw [← container]
        exact Rendering.edit_ok (worn.discardChildren_hollow hollow fresh)
      rw [List.map_cons, List.map_cons, Means.writeRegions]
      refine lead _ ?_
      have reached := scope.resolve?_eq region.iteration.source
      cases value : scope.resolve? region.iteration.source with
      | none =>
          rw [value] at reached
          exact .nothing (by simp [plotFilling, Meaning.filling, ← reached])
      | some v =>
          rw [value] at reached
          cases v with
          | null =>
              intro c D worn fresh
              have filling : plotFilling env.keepMarkers scope.meaning (region, t) =
                  (.content s.label, { content := some (([] : List (NodeTree NodeId)).map shape) }) := by
                simp [plotFilling, Meaning.filling, ← reached, container]
              refine ⟨c, _, discarded worn (empty D fresh), worn.fill_nothing hollow, ?_⟩
              rw [filling]
              exact Worn.gains_fill (empty D fresh) []
          | array items =>
              intro c D worn fresh
              obtain ⟨c', us, run, filled, shapes⟩ := forM_items standard (renders part (by simp))
                sound.1 hollow (fun item => region.iteration.scopeFor item scope) items worn
              have filling : plotFilling env.keepMarkers scope.meaning (region, t) =
                  (.content s.label, { content := some (us.map shape) }) := by
                simp [plotFilling, Meaning.filling, ← reached, container, shapes, own, Scope.meaning_scopeFor]
              rw [container] at run
              refine ⟨c', _, (bind_ok (discarded worn (empty D fresh))).trans run, filled, ?_⟩
              rw [filling]
              exact Worn.gains_fill (empty D fresh) us
          | bool | number | string | object | function =>
              intro c D worn fresh
              have filling : (plotFilling env.keepMarkers scope.meaning (region, t)).2 = {} := by
                simp [plotFilling, Meaning.filling, ← reached]
              refine ⟨_, D, rfl, worn, rfl, fun g mem => ?_, fun _ _ => rfl⟩
              rw [fresh g mem, List.mem_singleton.1 mem, filling]

/-! ## Whole patterns -/

/-- Every site of a copy that is rendered gains what its reference fills. -/
theorem fills_render (standard : env.handlers = .standard) {compiled : CompiledTemplate}
    {prototype : NodeId} {parts : List Pattern} {sites : List Site} {i : Instance}
    (renders : ∀ p ∈ parts, p.Renders env) (sound : SoundAll w parts)
    (same : parts.map (·.compiled) = (sites.filterMap Site.plot?).map Prod.snd)
    (bindings : i.bindings = .ofList (sites.filterMap Site.bound?))
    (regions : i.regions = (sites.filterMap Site.plot?).map Prod.fst)
    (shaped : ∀ site ∈ sites, ShapedReference site.2)
    (builtIn : ∀ site ∈ sites, ∀ b, site.2 = .binding b → b.kind.isBuiltIn = true)
    (offers : ∀ site ∈ sites, Offers C site.target)
    (distinct : (sites.map Site.target).Nodup) (scope : Scope) :
    Rendering.Fills w C (render env scope i ⟨compiled, prototype, parts⟩)
      (sites.map fun site => (site.target, expandReference env.keepMarkers scope.meaning site.2)) := by
  have ofBound : ∀ {site : Site} {b : BoundBinding}, site.bound? = some b →
      b.target = site.target ∧ site.2 = .binding b.binding := by
    rintro ⟨host, r⟩ b found
    obtain ⟨binding, target, -⟩ := Site.bound?_eq_some found
    dsimp only at binding
    subst binding
    exact ⟨target, rfl⟩
  have ofPlot : ∀ {site : Site} {plot : Region × CompiledTemplate}, site.plot? = some plot →
      Target.content plot.1.container = site.target ∧ site.2 = .template plot.2 := by
    rintro ⟨host, r⟩ plot found
    obtain ⟨template, container, -⟩ := Site.plot?_eq_some found
    dsimp only at template container
    subst template
    rw [container]
    exact ⟨rfl, rfl⟩
  have bound : ∀ {b : BoundBinding}, b ∈ i.bindings ↔ b ∈ sites.filterMap Site.bound? := by
    rw [bindings]
    exact BindingTable.mem_ofList
  have fromBindings : Rendering.Fills w C (Rendering.means.writeBindings i scope)
      (i.bindings.list.map fun b => (b.target, b.binding.filling scope.meaning)) := by
    refine Instance.fills_bindings (fun b mem => ?_) ?_ scope
    · rw [bound] at mem
      obtain ⟨site, listed, found⟩ := List.mem_filterMap.1 mem
      obtain ⟨binding, target, handler⟩ := Site.bound?_eq_some found
      exact ⟨⟨_, target⟩, handler, builtIn site listed _ binding,
        (ofBound found).1 ▸ offers site listed⟩
    · rw [bindings, ((BindingTable.list_ofList_perm _).map _).nodup_iff]
      exact distinct.sublist (filterMap_map_sublist (fun found => (ofBound found).1) sites)
  have fromRegions : Rendering.Fills w C
      (Rendering.means.writeRegions env scope ((sites.filterMap Site.plot?).map Prod.fst) parts)
      ((sites.filterMap Site.plot?).map (plotFilling env.keepMarkers scope.meaning)) := by
    refine fills_regions standard scope renders sound same (fun plot mem => ?_) ?_
    · obtain ⟨site, listed, found⟩ := List.mem_filterMap.1 mem
      exact (ofPlot found).1 ▸ offers site listed
    · exact distinct.sublist (filterMap_map_sublist (fun found => (ofPlot found).1) sites)
  rw [render, Means.write, regions]
  refine (fromBindings.seq fromRegions ?_).congr fun g => ⟨fun mem => ?_, fun mem => ?_⟩
  · intro T first second
    rw [List.map_map] at first second
    obtain ⟨b, mem, rfl⟩ := List.mem_map.1 first
    obtain ⟨plot, other, equal⟩ := List.mem_map.1 second
    obtain ⟨site, listed, found⟩ := List.mem_filterMap.1 (bound.1 mem)
    obtain ⟨site', listed', found'⟩ := List.mem_filterMap.1 other
    have one : site' = site := List.inj_on_of_nodup_map distinct listed' listed
      ((ofPlot found').1.symm.trans (equal.trans (ofBound found).1))
    subst one
    have clash := (ofBound found).2.symm.trans (ofPlot found').2
    cases clash
  · rcases List.mem_append.1 mem with mem | mem
    · obtain ⟨b, listed, rfl⟩ := List.mem_map.1 mem
      obtain ⟨site, own, found⟩ := List.mem_filterMap.1 (bound.1 listed)
      refine List.mem_map.2 ⟨site, own, ?_⟩
      rw [(ofBound found).1, (ofBound found).2]
      rfl
    · obtain ⟨plot, listed, rfl⟩ := List.mem_map.1 mem
      obtain ⟨site, own, found⟩ := List.mem_filterMap.1 listed
      refine List.mem_map.2 ⟨site, own, ?_⟩
      exact (plotFilling_eq found).symm
  · obtain ⟨⟨host, r⟩, own, rfl⟩ := List.mem_map.1 mem
    cases r with
    | binding b =>
        refine List.mem_append_left _ (List.mem_map.2
          ⟨{ binding := b, target := b.target host, handler := b.kind.handler }, ?_, rfl⟩)
        exact bound.2 (List.mem_filterMap.2 ⟨_, own, rfl⟩)
    | template t =>
        obtain ⟨iteration, read⟩ := ShapedReference.iteration (shaped _ own)
        have found : Site.plot? (host, .template t) =
            some ({ container := host, iteration := iteration }, t) := by
          simp [Site.plot?, read]
        exact List.mem_append_right _
          (List.mem_map.2 ⟨_, List.mem_filterMap.2 ⟨_, own, found⟩, plotFilling_eq found⟩)

theorem renders_of_parts (standard : env.handlers = .standard) {compiled : CompiledTemplate}
    {prototype : NodeId} {parts : List Pattern} (renders : ∀ p ∈ parts, p.Renders env) :
    Renders env ⟨compiled, prototype, parts⟩ := by
  intro w C i D c scope sound mounted worn
  obtain ⟨slots, skeleton, expression⟩ := compiled
  obtain ⟨-, ⟨⟨t, tree, -, fits⟩, inner⟩, same, all⟩ := sound
  have fitting : List.Forall₂ SlotFits (hostTrees C) slots := by
    rw [show treeOf? skeleton.markup = some C.shape from mounted.tree] at tree
    cases tree
    exact hosts_fit fits
  have length := fitting.length_eq
  have plots := plots_sitesOf skeleton expression slots inner ((hostTrees C).map label)
    (by simpa using length)
  have shaped : ∀ site ∈ sitesOf ((hostTrees C).map label) slots, ShapedReference site.2 := by
    intro site mem
    obtain ⟨H, -, slot, listed, -, inside, -⟩ := fits_of_mem_sitesOf fitting mem
    exact shaped_of_mem inner listed inside
  have builtIn : ∀ site ∈ sitesOf ((hostTrees C).map label) slots, ∀ b, site.2 = .binding b →
      b.kind.isBuiltIn = true := by
    intro site mem b binding
    obtain ⟨H, -, slot, -, fit, inside, -⟩ := fits_of_mem_sitesOf fitting mem
    exact fit.builtIn b (binding ▸ inside)
  have distinct := nodup_sitesOf fitting (worn.nodup.sublist (hostTrees_sublist C))
  obtain ⟨c', E, run, worn', gains⟩ := fills_render standard renders all (same.trans plots.symm)
    mounted.bindings mounted.regions shaped builtIn (fun site => offers_site fitting) distinct scope
    c D worn fun g _ => mounted.received g.1
  refine ⟨c', E, run, worn', Dress.shape_expand mounted.tree worn.fits worn.nodup length
    (fun x => by rw [gains.unmarked, mounted.unmarked]) (fun site mem => ?_) fun T out => ?_⟩
  · exact gains.gained _ (List.mem_map.2 ⟨site, mem, rfl⟩)
  · rw [gains.others T (by simpa [Function.comp_def] using out), mounted.received]

mutual

theorem renders (standard : env.handlers = .standard) : (p : Pattern) → p.Renders env
  | ⟨_, _, parts⟩ => renders_of_parts standard (rendersAll standard parts)

theorem rendersAll (standard : env.handlers = .standard) : (ps : List Pattern) →
    ∀ p ∈ ps, p.Renders env
  | [], p, mem => by cases mem
  | q :: qs, p, mem => by
      rcases List.mem_cons.1 mem with first | others
      · rw [first]
        exact renders standard q
      · exact rendersAll standard qs p others

end

end Pattern

/-! ## A list -/

namespace CompiledTemplate

theorem treeOf?_print {markup : String} {t : NodeTree Unit} (same : markup = t.print false)
    (element : t.data.isElement = true) (printable : t.Printable) : treeOf? markup = some t := by
  have read := parse_printAll (.singleton t) (show PrintableAll [t] from ⟨printable, trivial⟩)
  rw [show printAll false [t] = markup by rw [same, printAll, printAll, String.append_empty]] at read
  rw [treeOf?, read, map_shape_eq_self]
  exact List.find?_cons_of_pos element

theorem treeOf?_childless {markup tag : String} {attributes : List (String × Value)}
    (plain : PlainName tag.toList) (distinct : (attributes.map Prod.fst).Nodup)
    (plains : ∀ entry ∈ attributes, PlainName entry.1.toList)
    (strings : ∀ entry ∈ attributes, ∃ value, entry.2 = .string value)
    (same : markup = (node () (.element tag attributes) []).print false) :
    treeOf? markup = some (.node () (.element tag attributes) []) :=
  treeOf?_print same rfl ⟨.childless plain distinct plains strings, trivial⟩

/-- An item of a list, shown as text. -/
def sampleItem : CompiledTemplate where
  slots := [[.binding { kind := .escaped, key := "item" }]]
  skeleton := .plain "<div><li data-poirot=\"\"></li></div>"
  expression := some "items item"

/-- A list with a class and its items. -/
def sampleList : CompiledTemplate where
  slots := [[.binding { kind := .escaped, key := "class", attr := some "class" }, .template sampleItem]]
  skeleton := .plain "<ul class=\"\" data-poirot=\"\"></ul>"
  expression := none

theorem treeOf?_sampleItem : treeOf? sampleItem.markup =
    some (.node () (.element "div" []) [.node () (.element "li" [("data-poirot", .string "")]) []]) :=
  treeOf?_print (by decide +kernel) rfl
    ⟨.ordinary (by decide) (.of_all rfl (c := 'd') rfl rfl) List.nodup_nil (List.forall_mem_nil _)
        (List.forall_mem_nil _) (.singleton _),
      ⟨.childless (.of_all rfl (c := 'l') rfl rfl) (by decide)
        (List.forall_mem_singleton.2 PlainName.host) (List.forall_mem_singleton.2 ⟨_, rfl⟩), trivial⟩,
      trivial⟩

theorem treeOf?_sampleList : treeOf? sampleList.markup =
    some (.node () (.element "ul" [("class", .string ""), ("data-poirot", .string "")]) []) :=
  treeOf?_childless (.of_all rfl (c := 'u') rfl rfl) (by decide)
    (List.forall_mem_cons.2 ⟨.of_all rfl (c := 'c') rfl rfl, List.forall_mem_singleton.2 PlainName.host⟩)
    (List.forall_mem_cons.2 ⟨⟨_, rfl⟩, List.forall_mem_singleton.2 ⟨_, rfl⟩⟩) (by decide)

theorem shaped_sampleItem : sampleItem.Shaped := by
  refine ⟨⟨_, treeOf?_sampleItem, rfl, .cons ⟨by decide, fun _ _ _ => rfl, by decide, nofun, ?_⟩ .nil⟩,
    ⟨trivial, trivial⟩, trivial⟩
  intro b mem
  cases List.mem_singleton.1 mem
  rfl

theorem shaped_sampleList : sampleList.Shaped := by
  have fits : SlotFits (.node () (.element "ul" [("class", .string ""), ("data-poirot", .string "")]) [])
      [.binding { kind := .escaped, key := "class", attr := some "class" }, .template sampleItem] := by
    refine ⟨by decide, fun _ _ _ => rfl, by decide, ?_, ?_⟩
    · intro name mem
      cases List.mem_singleton.1 mem
      exact ⟨by decide, by decide⟩
    · intro b mem
      simp only [List.mem_cons, Reference.binding.injEq, reduceCtorEq, List.not_mem_nil, or_false] at mem
      rw [mem]
      rfl
  exact ⟨⟨_, treeOf?_sampleList, rfl, .cons fits .nil⟩,
    ⟨trivial, ⟨by decide, shaped_sampleItem⟩, trivial⟩, trivial⟩

theorem expand_sampleItem (outer : Meaning) (value : Value) :
    (sampleItem.expand false (outer.naming "item" value)).children =
      [.node () (.element "li" []) [.node () (.text value.text) []]] := by
  have path : pathParts "item" = ["item"] := by decide +kernel
  have tree := treeOf?_sampleItem
  rw [sampleItem] at tree ⊢
  rw [expand, show treeOf? (Skeleton.plain "<div><li data-poirot=\"\"></li></div>").markup = _ from tree]
  simp only [expandSlots, expandSlot, expandReference, Binding.filling, Meaning.reach?, path]
  rfl

/-- A context with a class and items. -/
def sampleContext (word : String) (items : List Value) : Value :=
  .object [("class", .string word), ("items", .array items)]

/-- The list has the class, and an entry for each item. -/
theorem expand_sampleList (word : String) (items : List Value) :
    sampleList.expand false (.ofContext (sampleContext word items)) =
      .node () (.element "ul" [("class", .string word)])
        (items.map fun item => .node () (.element "li" []) [.node () (.text item.text) []]) := by
  have attr : pathParts "class" = ["class"] := by decide +kernel
  have path : pathParts "items" = ["items"] := by decide +kernel
  have words : expressionWords "items item" = ["items", "item"] := by decide +kernel
  have tree := treeOf?_sampleList
  rw [sampleList] at tree ⊢
  rw [expand, show treeOf? (Skeleton.plain "<ul class=\"\" data-poirot=\"\"></ul>").markup = _ from tree]
  simp only [expandSlots, expandSlot, expandReference, Binding.filling, Meaning.reach?, attr]
  rw [show sampleItem.expression.getD "" = "items item" from rfl, words]
  simp only [expand_sampleItem, Meaning.filling, Meaning.reach?, path]
  rw [List.map_eq_flatMap]
  rfl

end CompiledTemplate

/-! ## Rendering a template -/

namespace Template

/-- A document in which templates can be rendered takes any template of the right shape. -/
theorem render_of_ready (standard : env.handlers = .standard) {t : CompiledTemplate}
    (shaped : t.Shaped) (context : Value) {d : Document} (ready : d.Ready) :
    ∃ template d₁ d₂ events T, ofCompiled env t d = .ok template d₁ ∧
      Rendering.run (template.render context) d₁ = (.ok template.live.root, d₂, events) ∧
      d₂.tree template.live.root = .ok T ∧ T.shape = t.expand env.keepMarkers (.ofContext context) := by
  obtain ⟨p, i, d₁, u, D, C, built, made⟩ := env.assemble_ok standard t shaped d ready
  rw [← env.materialize_eq ready.accounted] at built
  have sound : p.Sound (d.view.join u) := Pattern.Sound.mono
    (fun {x n} there => (View.join_right (made.fresh there)).trans there) p made.sound
  obtain ⟨c, E, rendered, worn, shape⟩ :=
    Pattern.renders standard p (c := { document := d₁ }) (.ofContext context) sound
      (made.compiled ▸ made.mounted) made.worn
  have finished : (Template.mk env p i).render context { document := d₁ } = .ok i.root c := by
    rw [Template.render, bind_ok rendered]
    rfl
  refine ⟨{ environment := env, pattern := p, live := i }, d₁, c.document, c.history.reverse,
    E.apply C, ?_, ?_, ?_, ?_⟩
  · rw [ofCompiled, bind_ok built]
    rfl
  · rw [Rendering.run, finished]
  · have there := tree_of_stands worn.stands worn.nodup_apply
    rwa [Dress.label_apply, ← made.mounted.root] at there
  · rw [shape, made.compiled, Scope.meaning_ofContext]

/-- A template of the right shape can be built in any document that comes about by operations
from one without nodes that mends flaws of markup. Rendering a context into it succeeds, and
gives the expansion of the template in the scope of the context, up to the numbers of nodes. -/
theorem render_expands (t : CompiledTemplate) (shaped : t.Shaped) (context : Value)
    (name : String) (operations : List Operation) (keepMarkers : Bool) (logLevel : Level) :
    ∃ template d₁ d₂ events T,
      ofCompiled { handlers := .standard, logLevel, keepMarkers } t
          (Operation.run { name := name, strict := false } operations) = .ok template d₁ ∧
        Rendering.run (template.render context) d₁ = (.ok template.live.root, d₂, events) ∧
        d₂.tree template.live.root = .ok T ∧
        T.shape = t.expand keepMarkers (.ofContext context) :=
  render_of_ready rfl shaped context
    (Operation.lasting_run lasting_ready operations ⟨accounted_empty name false, rfl⟩)

/-- A list with a class, of which each item is shown as text: the list that has been built has
an entry for each of two items. -/
theorem render_expands_list :
    let item : CompiledTemplate := {
      slots := [[.binding { kind := .escaped, key := "item" }]]
      skeleton := .plain "<div><li data-poirot=\"\"></li></div>"
      expression := some "items item" }
    let list : CompiledTemplate := {
      slots := [[.binding { kind := .escaped, key := "class", attr := some "class" }, .template item]]
      skeleton := .plain "<ul class=\"\" data-poirot=\"\"></ul>"
      expression := none }
    let context : Value := .object [("class", .string "a"), ("items", .array [.string "b", .null])]
    let shown : NodeTree Unit := .node () (.element "ul" [("class", .string "a")]) [
      .node () (.element "li" []) [.node () (.text "b") []],
      .node () (.element "li" []) [.node () (.text "") []]]
    list.Shaped ∧ ∃ template d₁ d₂ events T,
      ofCompiled { handlers := .standard, logLevel := .warn, keepMarkers := false } list
          (Operation.run { name := "page", strict := false } []) = .ok template d₁ ∧
        Rendering.run (template.render context) d₁ = (.ok template.live.root, d₂, events) ∧
        d₂.tree template.live.root = .ok T ∧
        T.shape = list.expand false (.ofContext context) ∧ T.shape = shown := by
  intro item list context shown
  obtain ⟨template, d₁, d₂, events, T, built, rendered, read, shape⟩ :=
    render_expands sampleList shaped_sampleList context "page" [] false .warn
  exact ⟨shaped_sampleList, template, d₁, d₂, events, T, built, rendered, read, shape,
    shape.trans (expand_sampleList "a" [.string "b", .null])⟩

end Template

end Stencil
