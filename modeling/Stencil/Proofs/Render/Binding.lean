import Stencil.Proofs.Document.Refusal
import Stencil.Proofs.Render.Making
import Stencil.Proofs.Render.Refinement
import Stencil.Proofs.Render.Visiting

/-! # Binding

A template is bound to a tree by giving its slots to the visited elements of the tree in document
order, whatever handlers there are and whether or not flaws of markup are mended. That is refused
exactly where there are not as many slots as visited elements, as long as each reference can be
wired. Nothing of what was there changes but that the visited elements lose their markers.
-/

namespace Stencil

open Markup NodeTree Document Edit View

/-! ## Relieved nodes -/

@[simp] theorem Markup.NodeData.unmarked_unmarked (data : NodeData) :
    data.unmarked.unmarked = data.unmarked := by
  cases data with
  | element tag own => simp [unmarked]
  | text | comment | fragment | doctype => rfl

@[simp] theorem Markup.NodeData.isElement_unmarked (data : NodeData) :
    data.unmarked.isElement = data.isElement := by
  cases data <;> rfl

/-- Some hosts have lost their markers, and nodes may have come. -/
structure Document.Relieved (hosts : List NodeId) (d d' : Document) : Prop where
  sound : d'.Sound
  strict : d'.strict = d.strict
  nodes : ∀ {x n}, d.view x = some n →
    d'.view x = some { n with data := if x ∈ hosts then n.data.unmarked else n.data }

namespace Document.Relieved

variable {d d' d'' : Document} {hosts more : List NodeId}

theorem refl (h : d.Sound) : Relieved [] d d :=
  ⟨h, rfl, fun node => by simpa using node⟩

theorem trans (h : Relieved hosts d d') (k : Relieved more d' d'') : Relieved (hosts ++ more) d d'' where
  sound := k.sound
  strict := k.strict.trans h.strict
  nodes {x n} node := by
    rw [k.nodes (h.nodes node)]
    by_cases first : x ∈ hosts <;> by_cases second : x ∈ more <;> simp [first, second]

/-- Hosts that were not there do not count. -/
theorem trans_new (h : Relieved [] d d') (k : Relieved more d' d'')
    (fresh : ∀ x ∈ more, d.view x = none) : Relieved [] d d'' where
  sound := k.sound
  strict := k.strict.trans h.strict
  nodes {x n} node := by
    have old : x ∉ more := fun mem => by
      rw [fresh x mem] at node
      cases node
    rw [k.nodes (h.nodes node)]
    simp [old]

theorem of_planted {ι : Type} {t : NodeTree ι} {s : NodeTree NodeId} (h : d.Sound)
    (planted : Planted d d' none t s) (fits : t.Fits) : Relieved [] d d' :=
  ⟨h.planted planted fits, planted.trades.strict, fun node => by
    simpa using planted.trades.kept node (by simp)⟩

theorem kept (h : Relieved hosts d d') {x : NodeId} {n : Node} (out : x ∉ hosts)
    (node : d.view x = some n) : d'.view x = some n := by
  rw [h.nodes node, if_neg out]

theorem element (h : Relieved hosts d d') {x : NodeId}
    (there : ∃ n, d.view x = some n ∧ n.data.isElement = true) :
    ∃ n, d'.view x = some n ∧ n.data.isElement = true := by
  obtain ⟨n, node, element⟩ := there
  refine ⟨_, h.nodes node, ?_⟩
  dsimp only
  split
  · rwa [NodeData.isElement_unmarked]
  · exact element

end Document.Relieved

/-! ## Sites -/

namespace Reference

def binding? : Reference CompiledTemplate → Option Binding
  | binding b => some b
  | template _ => none

/-- The key of a binding. -/
def key? (r : Reference CompiledTemplate) : Option String := r.binding?.map (·.key)

def template? : Reference CompiledTemplate → Option CompiledTemplate
  | binding _ => none
  | template t => some t

end Reference

/-- The binding of a site, if its kind has a handler. -/
def Site.bindingIn? (handlers : Registry) : Site → Option BoundBinding
  | (host, .binding b) =>
      (handlers.get? b.kind.tag).map fun handler => { binding := b, target := b.target host, handler }
  | (_, .template _) => none

/-- What has been wired are sites in their order. Patterns that are inherited are taken in order,
and the other ones are new. -/
structure Wiring.Matches (handlers : Registry) (inherited : List Pattern) (sites : List Site)
    (w : Wiring) : Prop where
  bindings : w.bindings = sites.filterMap (Site.bindingIn? handlers)
  regions : w.regions = sites.filterMap Site.region?
  parts : ∃ made, w.parts = inherited.take (sites.filterMap (·.2.template?)).length ++ made ∧
    made.map (·.compiled) = (sites.filterMap (·.2.template?)).drop inherited.length

namespace Wiring.Matches

variable {handlers : Registry} {inherited : List Pattern} {s t : List Site} {v w : Wiring}

theorem nothing : Matches handlers inherited [] {} := ⟨rfl, rfl, [], rfl, List.drop_nil.symm⟩

theorem length_parts (h : v.Matches handlers inherited s) :
    v.parts.length = (s.filterMap (·.2.template?)).length := by
  obtain ⟨made, parts, compiled⟩ := h.parts
  have new := congrArg List.length compiled
  rw [List.length_map, List.length_drop] at new
  rw [parts, List.length_append, List.length_take, new]
  omega

theorem append (h : v.Matches handlers inherited s)
    (k : w.Matches handlers (inherited.drop v.parts.length) t) :
    (v ++ w).Matches handlers inherited (s ++ t) where
  bindings := by
    rw [List.filterMap_append, ← h.bindings, ← k.bindings]
    rfl
  regions := by
    rw [List.filterMap_append, ← h.regions, ← k.regions]
    rfl
  parts := by
    obtain ⟨made, parts, compiled⟩ := h.parts
    obtain ⟨more, parts', compiled'⟩ := k.parts
    rw [h.length_parts] at parts' compiled'
    rw [List.length_drop] at compiled'
    refine ⟨made ++ more, ?_, ?_⟩
    · show v.parts ++ w.parts = _
      rw [parts, parts', List.filterMap_append, List.length_append, List.take_add, List.append_assoc,
        List.append_assoc, List.append_cancel_left_eq, ← List.append_assoc, ← List.append_assoc]
      -- Either nothing is new for the first sites, or nothing is left for the other ones.
      refine congrArg (· ++ more) ?_
      rcases Nat.le_total (s.filterMap (·.2.template?)).length inherited.length with enough | few
      · rw [List.drop_eq_nil_of_le enough, List.map_eq_nil_iff] at compiled
        rw [compiled, List.nil_append, List.append_nil]
      · rw [List.drop_eq_nil_of_le few, List.take_nil, List.append_nil, List.nil_append]
    · rw [List.map_append, compiled, compiled', List.filterMap_append, List.drop_append]

end Wiring.Matches

/-! ## Steps -/

namespace Environment

variable {env : Environment} {d d' : Document} {host : NodeId} {inherited : List Pattern}

/-- A template can be built in each sound document that is as strict. -/
def Buildable (env : Environment) (strict : Bool) (t : CompiledTemplate) : Prop :=
  ∀ d : Document, d.Sound → d.strict = strict →
    ∃ made d', env.materialize t d = .ok made d' ∧ made.1.compiled = t ∧ Relieved [] d d'

/-- A reference can be wired: there is a handler for its kind, or its expression is well formed and
the template can be built. -/
def Wirable (env : Environment) (strict : Bool) : Reference CompiledTemplate → Prop
  | .binding b => ∃ handler, env.handlers.get? b.kind.tag = some handler
  | .template t => (∃ i, Iteration.parse? (t.expression.getD "") = some i) ∧ env.Buildable strict t

theorem wireReference_run (sound : d.Sound) {r : Reference CompiledTemplate}
    (wirable : env.Wirable d.strict r) (inherited : List Pattern) (host : NodeId) :
    ∃ v d', env.wireReference inherited host r d = .ok v d' ∧
      v.Matches env.handlers inherited [(host, r)] ∧ Relieved [] d d' := by
  cases r with
  | binding b =>
      obtain ⟨handler, found⟩ := wirable
      have bound : env.bind host b d = .ok { binding := b, target := b.target host, handler } d := by
        rw [Environment.bind, found]
        rfl
      refine ⟨_, d, (by rw [wireReference, bind_ok bound]; rfl), ⟨?_, rfl, [], rfl, List.drop_nil.symm⟩,
        .refl sound⟩
      simp [Site.bindingIn?, found]
  | template t =>
      obtain ⟨⟨i, read⟩, build⟩ := wirable
      have region : [(host, Reference.template t)].filterMap Site.region? =
          [{ container := host, iteration := i }] := by
        simp [Site.region?, read]
      cases inherited with
      | cons part others =>
          refine ⟨_, d, (by rw [wireReference_cons, bind_ok (region_ok read host)]; rfl),
            ⟨rfl, region.symm, [], rfl, by simp [Reference.template?]⟩, .refl sound⟩
      | nil =>
          obtain ⟨made, d', built, compiled, relieved⟩ := build d sound rfl
          rw [env.materialize_eq sound.accounted] at built
          refine ⟨_, d', (by rw [wireReference_nil, bind_ok built, bind_ok (region_ok read host)]; rfl),
            ⟨rfl, region.symm, [made.1], rfl, ?_⟩, relieved⟩
          simp [Reference.template?, compiled]

theorem wireSlot_run (sound : d.Sound) {slot : List (Reference CompiledTemplate)}
    (wirable : ∀ r ∈ slot, env.Wirable d.strict r) (inherited : List Pattern) (host : NodeId) :
    ∃ v d', env.wireSlot inherited host slot d = .ok v d' ∧
      v.Matches env.handlers inherited (sitesAt host slot) ∧ Relieved [] d d' := by
  induction slot generalizing inherited d with
  | nil =>
      rw [wireSlot]
      exact ⟨_, d, rfl, .nothing, .refl sound⟩
  | cons r rs ih =>
      obtain ⟨own, others⟩ := List.forall_mem_cons.1 wirable
      obtain ⟨v, d₁, first, matched, relieved⟩ := wireReference_run sound own inherited host
      obtain ⟨w, d', rest, more, relieved'⟩ :=
        ih relieved.sound (relieved.strict ▸ others) (inherited.drop v.parts.length)
      rw [wireSlot, bind_ok first, bind_ok rest]
      exact ⟨_, d', rfl, matched.append more, relieved.trans relieved'⟩

/-- The hosts among these that lose their markers. -/
def bared (env : Environment) (hosts : List NodeId) : List NodeId :=
  if env.keepMarkers then [] else hosts

theorem bared_cons (env : Environment) (host : NodeId) (hosts : List NodeId) :
    env.bared (host :: hosts) = env.bared [host] ++ env.bared hosts := by
  unfold bared
  cases env.keepMarkers <;> rfl

theorem bared_subset (env : Environment) (hosts : List NodeId) : env.bared hosts ⊆ hosts := by
  unfold bared
  split
  · exact List.nil_subset hosts
  · exact List.Subset.refl hosts

theorem dropMarker_run (env : Environment) (sound : d.Sound)
    (there : ∃ n, d.view host = some n ∧ n.data.isElement = true) :
    ∃ d', env.dropMarker host d = .ok () d' ∧ Relieved (env.bared [host]) d d' := by
  unfold dropMarker bared
  cases env.keepMarkers with
  | true => exact ⟨d, rfl, .refl sound⟩
  | false =>
      obtain ⟨n, node, element⟩ := there
      obtain ⟨tag, own, node⟩ := exists_element node element
      obtain ⟨d', run, sound', node', others⟩ := removeAttribute_ok sound node Marker.host
      have settings := (lasting_settings d.name d.strict).removeAttribute host Marker.host d ⟨rfl, rfl⟩
      rw [after_ok run] at settings
      refine ⟨d', Build.edit_ok run, sound', settings.2, fun {x m} old => ?_⟩
      by_cases same : x = host
      · subst same
        rw [node] at old
        cases old
        simpa [NodeData.unmarked] using node'
      · rw [others x same, old]
        simp [same]

/-- A host with its slot. -/
theorem wireHost_run (sound : d.Sound) {slot : List (Reference CompiledTemplate)}
    (wirable : ∀ r ∈ slot, env.Wirable d.strict r) (inherited : List Pattern)
    (there : ∃ n, d.view host = some n ∧ n.data.isElement = true) :
    ∃ v d₁ d', env.wireSlot inherited host slot d = .ok v d₁ ∧ env.dropMarker host d₁ = .ok () d' ∧
      v.Matches env.handlers inherited (sitesAt host slot) ∧ Relieved (env.bared [host]) d d' := by
  obtain ⟨v, d₁, first, matched, relieved⟩ := wireSlot_run sound wirable inherited host
  obtain ⟨d', dropped, relieved'⟩ := dropMarker_run env relieved.sound (relieved.element there)
  exact ⟨v, d₁, d', first, dropped, matched, relieved.trans relieved'⟩

/-! ## Runs -/

/-- Hosts that are as many as the slots get them in order. -/
theorem wireSlots_run (sound : d.Sound) {slots : List (List (Reference CompiledTemplate))}
    (wirable : ∀ r ∈ slots.flatten, env.Wirable d.strict r) {hosts : List NodeId}
    (there : ∀ x ∈ hosts, ∃ n, d.view x = some n ∧ n.data.isElement = true)
    (same : hosts.length = slots.length) (inherited : List Pattern) (size wired : Nat) :
    ∃ v d', env.wireSlots inherited size wired hosts slots d = .ok v d' ∧
      v.Matches env.handlers inherited (sitesOf hosts slots) ∧ Relieved (env.bared hosts) d d' := by
  induction slots generalizing hosts inherited wired d with
  | nil =>
      obtain rfl := List.length_eq_zero_iff.1 same
      rw [wireSlots]
      exact ⟨_, d, rfl, .nothing, by rw [bared, ite_self]; exact .refl sound⟩
  | cons slot slots ih =>
      cases hosts with
      | nil => cases same
      | cons host hosts =>
          rw [List.flatten_cons, List.forall_mem_append] at wirable
          obtain ⟨own, others⟩ := List.forall_mem_cons.1 there
          obtain ⟨v, d₁, d₂, first, dropped, matched, relieved⟩ :=
            wireHost_run sound wirable.1 inherited own
          obtain ⟨w, d', rest, more, relieved'⟩ := ih relieved.sound (relieved.strict ▸ wirable.2)
            (fun x mem => relieved.element (others x mem)) (Nat.succ.inj same)
            (inherited.drop v.parts.length) (wired + 1)
          rw [wireSlots, bind_ok first, bind_ok dropped, bind_ok rest, sitesOf_cons, bared_cons]
          exact ⟨_, d', rfl, matched.append more, relieved.trans relieved'⟩

/-- What is wrong where hosts and slots are not equally many. -/
def mismatch (size wired hosts slots : Nat) : TemplateError :=
  if slots < hosts then .missingSlot (wired + slots + 1) size
  else .unusedSlots (slots - hosts) (wired + hosts)

/-- Hosts that are more or fewer than the slots are refused. -/
theorem wireSlots_mismatch (sound : d.Sound) {slots : List (List (Reference CompiledTemplate))}
    (wirable : ∀ r ∈ slots.flatten, env.Wirable d.strict r) {hosts : List NodeId}
    (there : ∀ x ∈ hosts, ∃ n, d.view x = some n ∧ n.data.isElement = true)
    (other : hosts.length ≠ slots.length) (inherited : List Pattern) (size wired : Nat) :
    ∃ d', env.wireSlots inherited size wired hosts slots d =
      .error (mismatch size wired hosts.length slots.length) d' := by
  induction slots generalizing hosts inherited wired d with
  | nil =>
      cases hosts with
      | nil => exact (other rfl).elim
      | cons host hosts =>
          rw [wireSlots]
          exact ⟨d, by simp [mismatch]; rfl⟩
  | cons slot slots ih =>
      cases hosts with
      | nil =>
          rw [wireSlots]
          exact ⟨d, by simp [mismatch]; rfl⟩
      | cons host hosts =>
          rw [List.flatten_cons, List.forall_mem_append] at wirable
          obtain ⟨own, others⟩ := List.forall_mem_cons.1 there
          obtain ⟨v, d₁, d₂, first, dropped, -, relieved⟩ :=
            wireHost_run sound wirable.1 inherited own
          obtain ⟨d', rest⟩ := ih relieved.sound (relieved.strict ▸ wirable.2)
            (fun x mem => relieved.element (others x mem)) (fun same => other (congrArg (· + 1) same))
            (inherited.drop v.parts.length) (wired + 1)
          refine ⟨d', ?_⟩
          rw [wireSlots, bind_ok first, bind_ok dropped, bind_error rest]
          simp only [mismatch, List.length_cons, Nat.add_lt_add_iff_right, Nat.add_sub_add_right]
          simp only [Nat.add_assoc, Nat.add_comm 1]

/-! ## Building -/

/-- The prototype of a template is planted and copied, and its hosts are found. -/
theorem prototype_run (sound : d.Sound) {skeleton : Skeleton} {P : NodeTree Unit}
    (clean : d.strict = false ∨ (parse skeleton.markup).2 = [])
    (tree : CompiledTemplate.treeOf? skeleton.markup = some P) :
    ∃ prototype C d₁ d₂, plantPrototype skeleton.markup d = .ok prototype d₁ ∧
      Build.edit (copyTree prototype) d₁ = .ok C.label d₂ ∧ hostsIn C.label d₂ = .ok (hostsOf C) d₂ ∧
      (hostsOf C).length = (hostsOf P).length ∧ Relieved [] d d₂ ∧
      (∀ x ∈ hostsOf C, ∃ n, d₂.view x = some n ∧ n.data.isElement = true) ∧
      ∀ x ∈ hostsOf C, d.view x = none := by
  obtain ⟨f, us, d₁, planted, same, run⟩ := plantPrototype_planted sound.accounted clean
  rw [tree] at same
  obtain ⟨Q, found, rfl⟩ := Option.map_eq_some_iff.1 same.symm
  rw [found] at run
  have sound₁ := sound.planted planted ⟨List.nodup_nil, fun _ => rfl, fitAll_parse skeleton.markup⟩
  have grown := Relieved.of_planted sound planted
    ⟨List.nodup_nil, fun _ => rfl, fitAll_parse skeleton.markup⟩
  have stands := View.standAll_iff.1 planted.stands.2 Q (List.mem_of_find?_eq_some found)
  obtain ⟨C, d₂, copied, copy⟩ :=
    copyTree_ok sound₁.accounted stands (sound₁.forest.nodup_labels Q _ stands)
  have copied' := Relieved.of_planted sound₁ copy (sound₁.forest.fits_of_stands Q _ stands)
  refine ⟨Q.label, C, d₁, d₂, run, Build.edit_ok copied, hostsIn_stands copy.stands copy.nodup, ?_,
    grown.trans copied', fun x mem => (copy.stands.host mem).2, fun x mem => ?_⟩
  · exact length_hostsOf (copy.shape.trans (shape_eq_self _).symm)
  · have fresh := copy.trades.fresh x (hostsOf_subset C mem) (by simp)
    by_contra old
    obtain ⟨n, node⟩ := Option.ne_none_iff_exists'.1 old
    rw [grown.nodes node] at fresh
    cases fresh

/-- A template can be built if its markup has an element, is clean where it must be, and has as many
hosts as there are slots, and if its references can be wired. -/
theorem buildable_of_wirable {strict : Bool} {slots : List (List (Reference CompiledTemplate))}
    {skeleton : Skeleton} {P : NodeTree Unit} (expression : Option String)
    (clean : strict = false ∨ (parse skeleton.markup).2 = [])
    (tree : CompiledTemplate.treeOf? skeleton.markup = some P)
    (same : (hostsOf P).length = slots.length)
    (wirable : ∀ r ∈ slots.flatten, env.Wirable strict r) :
    env.Buildable strict ⟨slots, skeleton, expression⟩ := by
  rintro d sound rfl
  obtain ⟨prototype, C, d₁, d₂, planted, copied, hosts, length, relieved, there, fresh⟩ :=
    prototype_run sound clean tree
  obtain ⟨v, d', wires, -, relieved'⟩ := wireSlots_run relieved.sound (relieved.strict ▸ wirable) there
    (length.trans same) [] slots.length 0
  rw [env.materialize_eq sound.accounted]
  refine ⟨_, d', (by rw [assemble, bind_ok planted, bind_ok copied, bind_ok hosts, bind_ok wires]; rfl),
    rfl, relieved.trans_new relieved' fun x mem => fresh x (env.bared_subset _ mem)⟩

mutual

/-- What can be built in one sound document can be built in each one that is as strict. -/
theorem buildable_of_assemble : (t : CompiledTemplate) → {d d' : Document} →
    {made : Pattern × Instance} → d.Sound → env.assemble t d = .ok made d' →
    env.Buildable d.strict t
  | ⟨slots, skeleton, expression⟩, d, d', made, sound, run => by
      rw [assemble] at run
      obtain ⟨root, e₁, planted, run⟩ := of_bind_ok run
      obtain ⟨copy, e₂, copied, run⟩ := of_bind_ok run
      obtain ⟨hosts, e₃, found, run⟩ := of_bind_ok run
      obtain ⟨v, e₄, wires, -⟩ := of_bind_ok run
      have clean := clean_of_plantPrototype sound.accounted planted
      obtain ⟨P, tree⟩ : ∃ P, CompiledTemplate.treeOf? skeleton.markup = some P := by
        obtain ⟨f, us, d₁, -, same, again⟩ := plantPrototype_planted sound.accounted clean
        rw [planted] at again
        cases first : us.find? fun t => t.data.isElement with
        | none =>
            rw [first] at again
            cases again
        | some Q => exact ⟨_, by rw [same, first]; rfl⟩
      obtain ⟨prototype, C, d₁, d₂, planted', copied', found', length, relieved, there, -⟩ :=
        prototype_run sound clean tree
      rw [planted'] at planted
      cases planted
      rw [copied'] at copied
      cases copied
      rw [found'] at found
      cases found
      have wirable := wirable_of_wireSlots slots relieved.sound there wires
      refine buildable_of_wirable expression clean tree ?_ (relieved.strict ▸ wirable)
      by_contra other
      obtain ⟨d₃, refused⟩ := wireSlots_mismatch relieved.sound wirable there
        (fun same => other (length.symm.trans same)) [] slots.length 0
      rw [wires] at refused
      cases refused

theorem wirable_of_wireSlots : (slots : List (List (Reference CompiledTemplate))) →
    {d d' : Document} → {hosts : List NodeId} → {size wired : Nat} → {v : Wiring} → d.Sound →
    (∀ x ∈ hosts, ∃ n, d.view x = some n ∧ n.data.isElement = true) →
    env.wireSlots [] size wired hosts slots d = .ok v d' → ∀ r ∈ slots.flatten, env.Wirable d.strict r
  | [], _, _, _, _, _, _, _, _, _ => List.forall_mem_nil _
  | slot :: slots, d, d', hosts, size, wired, v, sound, there, run => by
      cases hosts with
      | nil =>
          rw [wireSlots] at run
          cases run
      | cons host hosts =>
          rw [wireSlots] at run
          obtain ⟨v₁, e₁, first, run⟩ := of_bind_ok run
          obtain ⟨_, e₂, dropped, run⟩ := of_bind_ok run
          obtain ⟨v₂, e₃, rest, -⟩ := of_bind_ok run
          obtain ⟨own, others⟩ := List.forall_mem_cons.1 there
          have wirable := wirable_of_wireSlot slot sound first
          obtain ⟨w, d₁, d₂, first', dropped', -, relieved⟩ := wireHost_run sound wirable [] own
          rw [first'] at first
          cases first
          rw [dropped'] at dropped
          cases dropped
          rw [List.drop_nil] at rest
          rw [List.flatten_cons, List.forall_mem_append]
          exact ⟨wirable, relieved.strict ▸ wirable_of_wireSlots slots relieved.sound
            (fun x mem => relieved.element (others x mem)) rest⟩

theorem wirable_of_wireSlot : (slot : List (Reference CompiledTemplate)) → {d d' : Document} →
    {host : NodeId} → {v : Wiring} → d.Sound → env.wireSlot [] host slot d = .ok v d' →
    ∀ r ∈ slot, env.Wirable d.strict r
  | [], _, _, _, _, _, _ => List.forall_mem_nil _
  | r :: rs, d, d', host, v, sound, run => by
      rw [wireSlot] at run
      obtain ⟨v₁, e₁, first, run⟩ := of_bind_ok run
      obtain ⟨v₂, e₂, rest, -⟩ := of_bind_ok run
      have wirable := wirable_of_wireReference r sound first
      obtain ⟨w, d₁, first', -, relieved⟩ := wireReference_run sound wirable [] host
      rw [first'] at first
      cases first
      rw [List.drop_nil] at rest
      exact List.forall_mem_cons.2
        ⟨wirable, relieved.strict ▸ wirable_of_wireSlot rs relieved.sound rest⟩

theorem wirable_of_wireReference : (r : Reference CompiledTemplate) → {d d' : Document} →
    {host : NodeId} → {v : Wiring} → d.Sound → env.wireReference [] host r d = .ok v d' →
    env.Wirable d.strict r
  | .binding b, d, d', host, v, _, run => by
      rw [wireReference] at run
      obtain ⟨bound, e₁, found, -⟩ := of_bind_ok run
      rw [Environment.bind] at found
      cases handler : env.handlers.get? b.kind.tag with
      | none =>
          rw [handler] at found
          cases found
      | some h => exact ⟨h, handler⟩
  | .template t, d, d', host, v, sound, run => by
      rw [wireReference_nil] at run
      obtain ⟨made, e₁, built, run⟩ := of_bind_ok run
      obtain ⟨placed, e₂, found, -⟩ := of_bind_ok run
      refine ⟨?_, buildable_of_assemble t sound built⟩
      rw [region] at found
      cases read : Iteration.parse? (t.expression.getD "") with
      | none =>
          rw [read] at found
          cases found
      | some i => exact ⟨i, rfl⟩

end

end Environment

/-! ## Hosts and keys -/

theorem filter_filterMap_of {α β : Type} {f : α → Option β} {p : α → Bool} {q : β → Bool}
    (same : ∀ {a b}, f a = some b → q b = p a) (as : List α) :
    (as.filterMap f).filter q = (as.filter p).filterMap f := by
  induction as with
  | nil => rfl
  | cons a as ih =>
      cases found : f a with
      | none =>
          rw [List.filterMap_cons_none found, ih, List.filter_cons]
          split
          · rw [List.filterMap_cons_none found]
          · rfl
      | some b =>
          rw [List.filterMap_cons_some found, List.filter_cons, List.filter_cons, same found]
          split
          · rw [List.filterMap_cons_some found, ih]
          · exact ih

/-- The sites at one of some hosts are those of its slot. -/
theorem filter_sitesOf {hosts : List NodeId} {slots : List (List (Reference CompiledTemplate))}
    (distinct : hosts.Nodup) {k : Nat} {x : NodeId} {slot : List (Reference CompiledTemplate)}
    (host : hosts[k]? = some x) (given : slots[k]? = some slot) :
    (sitesOf hosts slots).filter (·.1 == x) = sitesAt x slot := by
  induction hosts generalizing slots k with
  | nil => cases host
  | cons y hosts ih =>
      cases slots with
      | nil => cases given
      | cons own slots =>
          obtain ⟨out, distinct⟩ := List.nodup_cons.1 distinct
          rw [sitesOf_cons, List.filter_append]
          cases k with
          | zero =>
              obtain rfl : y = x := Option.some.inj host
              obtain rfl : own = slot := Option.some.inj given
              have others : (sitesOf hosts slots).filter (·.1 == y) = [] := by
                rw [List.filter_eq_nil_iff]
                intro site mem same
                have node := node_of_mem_sitesOf mem
                rw [Site.target_node site.1 site.2, beq_iff_eq.1 same] at node
                exact out node
              rw [others, List.append_nil, sitesAt, List.filter_map]
              simp [Function.comp_def]
          | succ k =>
              have mem : x ∈ hosts := List.mem_of_getElem? host
              have other : y ≠ x := fun same => out (same ▸ mem)
              rw [ih distinct host given, sitesAt, List.filter_map]
              simp [Function.comp_def, other]

namespace Site

variable {handlers : Registry} {site : Site} {b : BoundBinding}

theorem bindingIn?_eq_some (h : site.bindingIn? handlers = some b) :
    site = (site.1, .binding b.binding) ∧ b.target.node = site.1 ∧
      handlers.get? b.binding.kind.tag = some b.handler := by
  obtain ⟨host, r⟩ := site
  cases r with
  | template t => cases h
  | binding c =>
      obtain ⟨handler, found, rfl⟩ := Option.map_eq_some_iff.1 h
      exact ⟨rfl, target_node host (.binding c), found⟩

theorem container_of_region? {r : Region} (h : site.region? = some r) : r.container = site.1 := by
  obtain ⟨t, rfl⟩ := region?_eq_some h
  rfl

theorem key?_of_bindingIn? (h : site.bindingIn? handlers = some b) :
    site.2.key? = some b.binding.key := by
  rw [(bindingIn?_eq_some h).1]
  rfl

end Site

/-- Each reference that is wired has a handler or an expression that is well formed. -/
def Reference.Readable (handlers : Registry) : Reference CompiledTemplate → Prop
  | binding b => ∃ handler, handlers.get? b.kind.tag = some handler
  | template t => ∃ i, Iteration.parse? (t.expression.getD "") = some i

namespace Site

/-- The binding of a site, with where it writes. -/
def aimed? (s : Site) : Option (Target × Binding) := s.2.binding?.map fun b => (b.target s.1, b)

/-- The host of a site at which a template is repeated, with what its expression says. -/
def placed? (s : Site) : Option (NodeId × Option Iteration) :=
  s.2.template?.map fun t => (s.1, Iteration.parse? (t.expression.getD ""))

variable {handlers : Registry} {s : Site}

theorem bindingIn?_map (readable : s.2.Readable handlers) :
    (s.bindingIn? handlers).map (fun b => (b.target, b.binding)) = s.aimed? := by
  obtain ⟨host, r⟩ := s
  cases r with
  | template t => rfl
  | binding b =>
      obtain ⟨handler, found⟩ := readable
      simp [bindingIn?, aimed?, found, Reference.binding?]

theorem region?_placed (readable : s.2.Readable handlers) :
    s.region?.map (fun r => (r.container, some r.iteration)) = s.placed? := by
  obtain ⟨host, r⟩ := s
  cases r with
  | binding b => rfl
  | template t =>
      obtain ⟨i, read⟩ := readable
      simp [region?, placed?, read, Reference.template?]

end Site

/-- What has been bound gives each host the references of its slot, and lists the keys by their first
bindings, the bindings of a key, the regions and what is repeated in them in document order. Patterns
that are inherited are used in order before any is made. -/
structure Fittings.Follows (handlers : Registry) (inherited : List Pattern) (hosts : List NodeId)
    (slots : List (List (Reference CompiledTemplate))) (f : Fittings) : Prop where
  handlers : ∀ b ∈ f.bindings, handlers.get? b.binding.kind.tag = some b.handler
  regions : f.regions.map (fun r => (r.container, some r.iteration)) =
    (sitesOf hosts slots).filterMap Site.placed?
  parts : ∃ made, f.parts = inherited.take (slots.flatten.filterMap Reference.template?).length ++ made ∧
    made.map (·.compiled) = (slots.flatten.filterMap Reference.template?).drop inherited.length
  hosted : ∀ (k : Nat) (x : NodeId) (slot : List (Reference CompiledTemplate)),
    hosts[k]? = some x → slots[k]? = some slot →
    (∀ key, ((f.bindings.get key).filter (·.target.node == x)).map (·.binding) =
        (slot.filterMap Reference.binding?).filter (·.key == key)) ∧
      (f.regions.filter (·.container == x)).map (some ·.iteration) =
        (slot.filterMap Reference.template?).map fun t => Iteration.parse? (t.expression.getD "")
  keys : ∀ root, (f.toInstance root).keys = (slots.flatten.filterMap Reference.key?).eraseDups
  bindingsFor : ∀ root key, ((f.toInstance root).bindingsFor key).map (fun b => (b.target, b.binding)) =
    ((sitesOf hosts slots).filter (·.2.key? == some key)).filterMap Site.aimed?

namespace Wiring.Matches

variable {handlers : Registry} {inherited : List Pattern} {sites : List Site} {w : Wiring}

theorem filter_bindings (h : w.Matches handlers inherited sites)
    (readable : ∀ s ∈ sites, s.2.Readable handlers) {p : Site → Bool} {q : BoundBinding → Bool}
    (same : ∀ {s b}, Site.bindingIn? handlers s = some b → q b = p s) :
    (w.bindings.filter q).map (fun b => (b.target, b.binding)) = (sites.filter p).filterMap Site.aimed? := by
  rw [h.bindings, filter_filterMap_of same, List.map_filterMap]
  exact List.filterMap_congr fun s mem => Site.bindingIn?_map (readable s (List.mem_of_mem_filter mem))

theorem filter_regions (h : w.Matches handlers inherited sites)
    (readable : ∀ s ∈ sites, s.2.Readable handlers) {p : Site → Bool} {q : Region → Bool}
    (same : ∀ {s r}, Site.region? s = some r → q r = p s) :
    (w.regions.filter q).map (fun r => (r.container, some r.iteration)) =
      (sites.filter p).filterMap Site.placed? := by
  rw [h.regions, filter_filterMap_of same, List.map_filterMap]
  exact List.filterMap_congr fun s mem => Site.region?_placed (readable s (List.mem_of_mem_filter mem))

theorem follows {hosts : List NodeId} {slots : List (List (Reference CompiledTemplate))}
    (h : w.Matches handlers inherited (sitesOf hosts slots))
    (readable : ∀ r ∈ slots.flatten, r.Readable handlers) (distinct : hosts.Nodup)
    (same : hosts.length = slots.length) : w.fittings.Follows handlers inherited hosts slots := by
  have flat := map_snd_sitesOf hosts slots same
  have sites : ∀ s ∈ sitesOf hosts slots, s.2.Readable handlers := fun s mem =>
    readable s.2 (flat ▸ List.mem_map_of_mem mem)
  have bindings := h.filter_bindings sites (p := fun _ => true) (q := fun _ => true) fun _ => rfl
  have regions := h.filter_regions sites (p := fun _ => true) (q := fun _ => true) fun _ => rfl
  have templates : (sitesOf hosts slots).filterMap (·.2.template?) =
      slots.flatten.filterMap Reference.template? := by
    rw [← flat, List.filterMap_map]
    rfl
  have table : w.fittings.bindings = .ofList w.bindings := rfl
  rw [List.filter_true, List.filter_true] at bindings regions
  refine ⟨fun b mem => ?_, regions, templates ▸ h.parts, fun k x slot host given => ⟨fun key => ?_, ?_⟩,
    fun root => ?_, fun root key => ?_⟩
  · rw [table, BindingTable.mem_ofList, h.bindings] at mem
    obtain ⟨s, -, found⟩ := List.mem_filterMap.1 mem
    exact (Site.bindingIn?_eq_some found).2.2
  · have own := h.filter_bindings sites (p := fun s : Site => s.2.key? == some key && s.1 == x)
      (q := fun b => b.target.node == x && b.binding.key == key) fun found => by
        rw [(Site.bindingIn?_eq_some found).2.1, Site.key?_of_bindingIn? found, Bool.and_comm]
        rfl
    rw [← List.filter_filter, ← List.filter_filter, filter_sitesOf distinct host given] at own
    have keyed : ∀ {r : Reference CompiledTemplate} {b : Binding}, r.binding? = some b →
        (b.key == key) = (r.key? == some key) := fun found => by
      rw [Reference.key?, found]
      rfl
    rw [table, BindingTable.get_ofList, filter_filterMap_of keyed]
    have bound := congrArg (List.map Prod.snd) own
    rw [List.map_map, sitesAt, List.filter_map, List.filterMap_map, List.map_filterMap] at bound
    refine bound.trans (List.filterMap_congr fun r _ => ?_)
    cases r <;> rfl
  · have own := h.filter_regions sites (p := fun s : Site => s.1 == x)
      (q := fun r => r.container == x) fun found => by rw [Site.container_of_region? found]
    rw [filter_sitesOf distinct host given] at own
    have placed := congrArg (List.map Prod.snd) own
    rw [List.map_map, sitesAt, List.filterMap_map, List.map_filterMap] at placed
    rw [List.map_filterMap]
    refine placed.trans (List.filterMap_congr fun r _ => ?_)
    cases r <;> rfl
  · have listed := congrArg (List.map fun pair => pair.2.key) bindings
    rw [List.map_map, List.map_filterMap] at listed
    rw [Instance.keys, Fittings.toInstance, table, BindingTable.keys_ofList, ← flat, List.filterMap_map]
    refine congrArg List.eraseDups (listed.trans (List.filterMap_congr fun s _ => ?_))
    simp [Site.aimed?, Reference.key?, Function.comp_def]
  · rw [Instance.bindingsFor, Fittings.toInstance, table, BindingTable.get_ofList]
    exact h.filter_bindings sites fun found => by rw [Site.key?_of_bindingIn? found]; rfl

end Wiring.Matches

/-! ## Binding a tree -/

namespace TemplateError

/-- There are not as many slots as hosts. -/
def IsMismatch : TemplateError → Prop
  | missingSlot _ _ | unusedSlots _ _ => True
  | _ => False

end TemplateError

namespace Environment

variable {env : Environment} {d : Document}

theorem isMismatch_mismatch (size wired hosts slots : Nat) :
    (mismatch size wired hosts slots).IsMismatch := by
  unfold mismatch
  split <;> trivial

theorem wirable_of_readable (sound : d.Sound) {r : Reference CompiledTemplate}
    (readable : r.Readable env.handlers)
    (built : ∀ t, r = .template t → ∃ made d', env.materialize t d = .ok made d') :
    env.Wirable d.strict r := by
  cases r with
  | binding b => exact readable
  | template t =>
      obtain ⟨made, d', run⟩ := built t rfl
      rw [env.materialize_eq sound.accounted] at run
      exact ⟨readable, buildable_of_assemble t sound run⟩

/-- A template whose references can be read, and of which all that is to be repeated can be built, is
bound to the tree of an element exactly if there are as many slots as visited elements. These get
the slots in document order and lose their markers, unless markers are kept, and nothing else of
what was there changes. -/
theorem wire_visited (sound : d.Sound) {root : NodeId} {T : NodeTree NodeId} (tree : d.tree root = .ok T)
    (element : T.data.isElement = true) {c : CompiledTemplate}
    (readable : ∀ r ∈ c.slots.flatten, r.Readable env.handlers)
    (built : ∀ t, .template t ∈ c.slots.flatten → ∃ made d', env.materialize t d = .ok made d')
    (inherited : List Pattern) :
    ((∃ e d', env.wire inherited c root d = .error e d' ∧ e.IsMismatch) ↔
        T.visited.length ≠ c.slots.length) ∧
      (T.visited.length ≠ c.slots.length → ∃ d', env.wire inherited c root d =
        .error (mismatch c.slots.length 0 T.visited.length c.slots.length) d') ∧
      (T.visited.length = c.slots.length → ∃ f d', env.wire inherited c root d = .ok f d' ∧
        f.Follows env.handlers inherited T.visited c.slots ∧ d'.Sound ∧
        d'.tree root = .ok (T.relieve (if env.keepMarkers then [] else T.visited)) ∧
        ∀ x n, x ∉ T.visited → d.view x = some n → d'.view x = some n) := by
  obtain ⟨n, node, rfl, stands⟩ := stands_of_treeWithin sound.forest _ root T tree
  have nodup := sound.forest.nodup_labels T _ stands
  have hosts := hostsOf_eq_visited sound.forest stands element
  have run := env.wire_stands inherited c sound.accounted stands nodup
  have listed := env.wireHosts_stands inherited c stands nodup
  have there : ∀ x ∈ T.visited, ∃ n, d.view x = some n ∧ n.data.isElement = true := fun x mem =>
    (stands.host (hosts ▸ mem)).2
  have wirable : ∀ r ∈ c.slots.flatten, env.Wirable d.strict r := fun r mem =>
    wirable_of_readable sound (readable r mem) fun t same => built t (same ▸ mem)
  rw [hosts] at listed
  have refused : T.visited.length ≠ c.slots.length → ∃ d', env.wire inherited c T.label d =
      .error (mismatch c.slots.length 0 T.visited.length c.slots.length) d' := by
    intro other
    obtain ⟨d', error⟩ := wireSlots_mismatch sound wirable there other inherited c.hostCount 0
    exact ⟨d', run.trans (map_error (listed.trans error))⟩
  have bound : T.visited.length = c.slots.length → ∃ (w : Wiring) (d' : Document),
      env.wire inherited c T.label d = .ok w.fittings d' ∧ w.Matches env.handlers inherited (sitesOf T.visited c.slots) ∧
      Relieved (env.bared T.visited) d d' := by
    intro same
    obtain ⟨w, d', wires, matched, relieved⟩ :=
      wireSlots_run sound wirable there same inherited c.hostCount 0
    exact ⟨w, d', run.trans (map_ok (listed.trans wires)), matched, relieved⟩
  refine ⟨⟨?_, fun other => ?_⟩, refused, fun same => ?_⟩
  · rintro ⟨e, d', error, -⟩ same
    obtain ⟨w, d'', wires, -⟩ := bound same
    rw [wires] at error
    cases error
  · obtain ⟨d', error⟩ := refused other
    exact ⟨_, d', error, isMismatch_mismatch ..⟩
  · obtain ⟨w, d', wires, matched, relieved⟩ := bound same
    have distinct : T.visited.Nodup := by
      rw [← hosts, ← map_label_hostNodes]
      exact nodup.sublist (((hostNodes_sublist T).map label).trans (hostTrees_sublist T))
    have stands' := stands.relieve relieved.nodes T
    have whole := tree_of_stands stands' (relieved.sound.forest.nodup_labels _ _ stands')
    rw [label_relieve] at whole
    exact ⟨w.fittings, d', wires, matched.follows readable distinct same, relieved.sound, whole,
      fun x n out => relieved.kept fun mem => out (env.bared_subset _ mem)⟩

/-- A list with a paragraph. What is in its item is left to the template of the item. -/
def samplePage : Document := Operation.run { name := "page", strict := false } [
  .createElement "ul", .createElement "li", .createElement "b", .createElement "p",
  .setAttribute ⟨0⟩ "data-poirot" "", .setAttribute ⟨0⟩ "data-poirot-block" "",
  .setAttribute ⟨1⟩ "data-poirot" "", .setAttribute ⟨1⟩ "data-poirot-block" "",
  .setAttribute ⟨2⟩ "data-poirot" "", .setAttribute ⟨3⟩ "data-poirot" "",
  .append ⟨1⟩ ⟨2⟩, .append ⟨0⟩ ⟨1⟩, .append ⟨0⟩ ⟨3⟩]

def sampleTree : NodeTree NodeId :=
  .node ⟨0⟩ (.element "ul" [("data-poirot", .string ""), ("data-poirot-block", .string "")]) [
    .node ⟨1⟩ (.element "li" [("data-poirot", .string ""), ("data-poirot-block", .string "")]) [
      .node ⟨2⟩ (.element "b" [("data-poirot", .string "")]) []],
    .node ⟨3⟩ (.element "p" [("data-poirot", .string "")]) []]

set_option maxRecDepth 4000 in
theorem tree_samplePage : samplePage.tree ⟨0⟩ = .ok sampleTree := rfl

theorem sound_samplePage : samplePage.Sound := by
  refine Operation.sound_run (sound_empty "page" false) _
    ⟨id, id, id, id, id, id, id, id, id, id, ?_, ?_, ?_, trivial⟩
  all_goals
    rintro ⟨-, ⟨n, node, fragment⟩, -⟩
    cases node
    cases fragment

open CompiledTemplate in
/-- A kind of its own has a handler before the standard ones. -/
theorem wire_visited_list :
    let env : Environment := { handlers := ⟨("B", Handler.literal) :: Registry.standard.entries⟩ }
    let title : Binding := { kind := .escaped, key := "class", attr := some "title" }
    let c : CompiledTemplate := {
      slots := [[.binding title], [.template sampleItem],
        [.binding { kind := .custom "B", key := "note" }, .binding title]]
      skeleton := .plain ""
      expression := none }
    ∃ f d', env.wire [] c ⟨0⟩ samplePage = .ok f d' ∧
      (f.toInstance ⟨0⟩).keys = ["class", "note"] ∧
      ((f.toInstance ⟨0⟩).bindingsFor "class").map (fun b => (b.target, b.binding)) =
        [(.attr ⟨0⟩ "title", title), (.attr ⟨3⟩ "title", title)] ∧
      f.regions.map (fun r => (r.container, some r.iteration)) =
        [(⟨1⟩, some { source := "items", itemName := some "item" })] ∧
      f.parts.map (·.compiled) = [sampleItem] ∧
      d'.tree ⟨0⟩ = .ok (sampleTree.relieve [⟨0⟩, ⟨1⟩, ⟨3⟩]) := by
  intro env title c
  have item : env.Buildable false sampleItem :=
    buildable_of_wirable _ (.inl rfl) treeOf?_sampleItem rfl fun r mem => by
      cases List.mem_singleton.1 mem
      exact ⟨_, rfl⟩
  have readable : ∀ r ∈ c.slots.flatten, r.Readable env.handlers := by
    rintro r (_ | ⟨_, _ | ⟨_, _ | ⟨_, _ | ⟨_, ⟨⟩⟩⟩⟩⟩)
    exacts [⟨_, rfl⟩, ⟨_, rfl⟩, ⟨_, rfl⟩, ⟨_, rfl⟩]
  have lenient : samplePage.strict = false := by decide +kernel
  obtain ⟨made, d₁, build, -⟩ := item _ sound_samplePage lenient
  have built : ∀ t, .template t ∈ c.slots.flatten → ∃ made d', env.materialize t samplePage = .ok made d' := by
    rintro t (_ | ⟨_, _ | ⟨_, _ | ⟨_, _ | ⟨_, ⟨⟩⟩⟩⟩⟩)
    exact ⟨made, d₁, build⟩
  obtain ⟨f, d', run, follows, -, relieved, -⟩ :=
    (wire_visited sound_samplePage tree_samplePage rfl readable built []).2.2 rfl
  obtain ⟨_, parts, compiled⟩ := follows.parts
  exact ⟨f, d', run, follows.keys _, follows.bindingsFor _ _, follows.regions, parts ▸ compiled, relieved⟩

end Environment

end Stencil
