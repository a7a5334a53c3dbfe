import Stencil.Proofs.Render.Building
import Stencil.Proofs.Render.Settling

/-! # Tidy templates

A template is tidy when the hosts whose content it changes have none in the markup. What is
wired to the hosts of a tidy tree is settled, whatever else the markup holds.
-/

namespace Stencil

open Markup NodeTree

/-! ## Tidy trees -/

/-- A host has no content of its own if its slot changes the content. -/
def Neat {ι : Type} (host : NodeTree ι) (slot : List (Reference CompiledTemplate)) : Prop :=
  ∀ r ∈ slot, r.isContent = true → host.children = []

/-- The hosts of a tree are neat with the slots that they are given. -/
def Markup.NodeTree.Tidy {ι : Type} (t : NodeTree ι)
    (slots : List (List (Reference CompiledTemplate))) : Prop :=
  ∀ pair ∈ (hostNodes t).zip slots, Neat pair.1 pair.2

theorem tidy_shape {ι : Type} {t : NodeTree ι} {slots : List (List (Reference CompiledTemplate))} :
    t.shape.Tidy slots ↔ t.Tidy slots := by
  have same : ∀ s : NodeTree ι, s.shape.children = [] ↔ s.children = [] := by
    rintro ⟨id, data, children⟩
    rw [shape_node]
    exact List.map_eq_nil_iff
  unfold NodeTree.Tidy
  rw [hostNodes_shape, List.zip_map_left]
  simp only [List.forall_mem_map, Prod.map, id_eq, Neat, same]

theorem tidy_of_childless {ι : Type} {t : NodeTree ι} (h : t.children = [])
    (slots : List (List (Reference CompiledTemplate))) : t.Tidy slots := by
  have only : ∀ s ∈ hostNodes t, s = t := by
    obtain ⟨id, data, children⟩ := t
    obtain rfl : children = [] := h
    cases data with
    | element name attributes =>
        intro s mem
        rw [hostNodes, hostNodesAmong, List.append_nil] at mem
        split at mem
        · exact List.mem_singleton.1 mem
        · cases mem
    | text | comment | fragment | doctype => exact List.forall_mem_nil _
  intro pair mem r _ _
  rw [only pair.1 (List.of_mem_zip mem).1, h]

namespace CompiledTemplate

mutual

/-- The markup of a template is tidy, and so are the templates to be repeated. -/
def Tidy : CompiledTemplate → Prop
  | ⟨slots, skeleton, _⟩ =>
      (∀ t, treeOf? skeleton.markup = some t → t.Tidy slots) ∧ TidySlots slots

def TidySlots : List (List (Reference CompiledTemplate)) → Prop
  | [] => True
  | slot :: slots => TidySlot slot ∧ TidySlots slots

def TidySlot : List (Reference CompiledTemplate) → Prop
  | [] => True
  | r :: rs => TidyReference r ∧ TidySlot rs

def TidyReference : Reference CompiledTemplate → Prop
  | .binding _ => True
  | .template t => t.Tidy

end

end CompiledTemplate

/-! ## What wiring gives -/

open Document Edit View

namespace Reference

/-- Whether a reference is a template to be repeated. -/
def isTemplate : Reference CompiledTemplate → Bool
  | binding _ => false
  | template _ => true

/-- A reference can be wired: its kind is known, or its expression well formed. -/
def Wirable : Reference CompiledTemplate → Prop
  | binding b => ∃ h, Registry.standard.get? b.kind.tag = some h
  | template t => ∃ i, Iteration.parse? (t.expression.getD "") = some i

end Reference

theorem map_snd_sitesOf : (hosts : List NodeId) → (slots : List (List (Reference CompiledTemplate))) →
    hosts.length = slots.length → (sitesOf hosts slots).map Prod.snd = slots.flatten
  | [], [], _ => rfl
  | host :: hosts, slot :: slots, same => by
      have own : (sitesAt host slot).map Prod.snd = slot := by
        simp [sitesAt, Function.comp_def]
      rw [sitesOf_cons, List.map_append, own, map_snd_sitesOf hosts slots (by simpa using same),
        List.flatten_cons]

namespace Site

/-- The binding of a site, if its kind has a standard handler. -/
def binding? : Site → Option BoundBinding
  | (host, .binding b) =>
      (Registry.standard.get? b.kind.tag).map fun handler =>
        { binding := b, target := b.target host, handler }
  | (_, .template _) => none

/-- The region of a site, if its expression is well formed. -/
def region? : Site → Option Region
  | (_, .binding _) => none
  | (host, .template t) =>
      (Iteration.parse? (t.expression.getD "")).map fun iteration => { container := host, iteration }

theorem binding?_eq_some {site : Site} {b : BoundBinding} (h : site.binding? = some b) :
    site = (site.1, .binding b.binding) ∧ b.target = b.binding.target site.1 ∧
      Registry.standard.get? b.binding.kind.tag = some b.handler := by
  obtain ⟨host, r⟩ := site
  cases r with
  | template t => cases h
  | binding c =>
      obtain ⟨handler, found, rfl⟩ := Option.map_eq_some_iff.1 h
      exact ⟨rfl, rfl, found⟩

theorem region?_eq_some {site : Site} {r : Region} (h : site.region? = some r) :
    ∃ t, site = (r.container, .template t) := by
  obtain ⟨host, q⟩ := site
  cases q with
  | binding c => cases h
  | template t =>
      obtain ⟨i, -, rfl⟩ := Option.map_eq_some_iff.1 h
      exact ⟨t, rfl⟩

end Site

/-- What has been wired are sites. -/
structure Wiring.Serves (v : Wiring) (sites : List Site) : Prop where
  wirable : ∀ site ∈ sites, site.2.Wirable
  bindings : v.bindings = sites.filterMap Site.binding?
  regions : v.regions = sites.filterMap Site.region?
  parts : v.parts.length = sites.countP (·.2.isTemplate)

namespace Wiring.Serves

variable {v w : Wiring} {s t : List Site}

theorem nothing : Serves {} [] := ⟨by simp, rfl, rfl, rfl⟩

theorem append (h : v.Serves s) (k : w.Serves t) : (v ++ w).Serves (s ++ t) where
  wirable site mem := (List.mem_append.1 mem).elim (h.wirable site) (k.wirable site)
  bindings := by
    rw [List.filterMap_append, ← h.bindings, ← k.bindings]
    rfl
  regions := by
    rw [List.filterMap_append, ← h.regions, ← k.regions]
    rfl
  parts := by
    rw [List.countP_append, ← h.parts, ← k.parts]
    exact List.length_append

theorem of_mem_bindings (h : v.Serves s) {b : BoundBinding} (mem : b ∈ v.bindings) :
    ∃ x, (x, .binding b.binding) ∈ s ∧ b.target = b.binding.target x ∧
      Registry.standard.get? b.binding.kind.tag = some b.handler := by
  rw [h.bindings] at mem
  obtain ⟨site, listed, found⟩ := List.mem_filterMap.1 mem
  obtain ⟨same, facts⟩ := Site.binding?_eq_some found
  exact ⟨site.1, same ▸ listed, facts⟩

theorem of_mem_regions (h : v.Serves s) {r : Region} (mem : r ∈ v.regions) :
    ∃ t, (r.container, .template t) ∈ s := by
  rw [h.regions] at mem
  obtain ⟨site, listed, found⟩ := List.mem_filterMap.1 mem
  obtain ⟨t, rfl⟩ := Site.region?_eq_some found
  exact ⟨t, listed⟩

end Wiring.Serves

namespace Environment

variable {env : Environment} {d d' : Document} {v : Wiring} {host : NodeId}

theorem serves_wireReference (standard : env.handlers = .standard) {inherited : List Pattern}
    {r : Reference CompiledTemplate} (run : env.wireReference inherited host r d = .ok v d') :
    v.Serves [(host, r)] := by
  cases r with
  | binding b =>
      rw [wireReference] at run
      obtain ⟨bound, d₁, first, run⟩ := of_bind_ok run
      cases run
      rw [Environment.bind, standard] at first
      cases found : Registry.standard.get? b.kind.tag with
      | none =>
          rw [found] at first
          cases first
      | some handler =>
          rw [found] at first
          cases first
          exact ⟨by simp [Reference.Wirable, found], by simp [Site.binding?, found], rfl, rfl⟩
  | template t =>
      have placed : ∃ part d₁, (region host (t.expression.getD "") >>= fun placed =>
          pure { regions := [placed], parts := [part] }) d₁ = .ok v d' := by
        cases inherited with
        | nil =>
            rw [wireReference_nil] at run
            obtain ⟨made, d₁, -, run⟩ := of_bind_ok run
            exact ⟨made.1, d₁, run⟩
        | cons part others =>
            rw [wireReference_cons] at run
            exact ⟨part, d, run⟩
      obtain ⟨part, d₁, run⟩ := placed
      obtain ⟨placed, d₂, second, run⟩ := of_bind_ok run
      cases run
      rw [Environment.region] at second
      cases read : Iteration.parse? (t.expression.getD "") with
      | none =>
          rw [read] at second
          cases second
      | some i =>
          rw [read] at second
          cases second
          exact ⟨by simp [Reference.Wirable, read], rfl, by simp [Site.region?, read], rfl⟩

theorem serves_wireSlot (standard : env.handlers = .standard) {inherited : List Pattern}
    {slot : List (Reference CompiledTemplate)} (run : env.wireSlot inherited host slot d = .ok v d') :
    v.Serves (sitesAt host slot) := by
  induction slot generalizing inherited d v with
  | nil =>
      rw [wireSlot] at run
      cases run
      exact .nothing
  | cons r rs ih =>
      rw [wireSlot] at run
      obtain ⟨v₁, d₁, first, run⟩ := of_bind_ok run
      obtain ⟨v₂, d₂, others, run⟩ := of_bind_ok run
      cases run
      exact (serves_wireReference standard first).append (ih others)

/-- Where wiring succeeds there is a slot for each host, and what is wired are the sites. -/
theorem serves_wireSlots (standard : env.handlers = .standard)
    {slots : List (List (Reference CompiledTemplate))} {hosts : List NodeId}
    {inherited : List Pattern} {size wired : Nat}
    (run : env.wireSlots inherited size wired hosts slots d = .ok v d') :
    hosts.length = slots.length ∧ v.Serves (sitesOf hosts slots) := by
  induction slots generalizing hosts inherited wired d v with
  | nil =>
      cases hosts with
      | nil =>
          rw [wireSlots] at run
          cases run
          exact ⟨rfl, .nothing⟩
      | cons host hosts =>
          rw [wireSlots] at run
          cases run
  | cons slot slots ih =>
      cases hosts with
      | nil =>
          rw [wireSlots] at run
          cases run
      | cons host hosts =>
          rw [wireSlots] at run
          obtain ⟨v₁, d₁, first, run⟩ := of_bind_ok run
          obtain ⟨-, d₂, -, run⟩ := of_bind_ok run
          obtain ⟨v₂, d₃, others, run⟩ := of_bind_ok run
          cases run
          obtain ⟨same, serves⟩ := ih others
          exact ⟨by simp [same], (serves_wireSlot standard first).append serves⟩

end Environment

/-- A site is a host with a reference of its slot. -/
theorem exists_host_of_mem_sitesOf {C : NodeTree NodeId}
    {slots : List (List (Reference CompiledTemplate))} {x : NodeId} {r : Reference CompiledTemplate}
    (mem : (x, r) ∈ sitesOf (hostsOf C) slots) :
    ∃ s slot, (s, slot) ∈ (hostNodes C).zip slots ∧ s.label = x ∧ r ∈ slot := by
  rw [← map_label_hostNodes] at mem
  obtain ⟨⟨y, slot⟩, zipped, listed⟩ := List.mem_flatMap.1 mem
  obtain ⟨r', inside, same⟩ := List.mem_map.1 listed
  cases same
  rw [List.zip_map_left] at zipped
  obtain ⟨⟨s, slot'⟩, paired, same⟩ := List.mem_map.1 zipped
  cases same
  exact ⟨s, _, paired, rfl, inside⟩

/-- What has been wired to the hosts of a tidy tree is settled. -/
theorem settled_of_serves {u : View} {p : Option NodeId} {C : NodeTree NodeId}
    {slots : List (List (Reference CompiledTemplate))} {v : Wiring} (f : u.Forest)
    (stands : u.Stands p C) (tidy : C.Tidy slots)
    (serves : v.Serves (sitesOf (hostsOf C) slots)) : (v.toInstance C.label).Settled u := by
  have placed : ∀ {x r}, (x, r) ∈ sitesOf (hostsOf C) slots →
      ∃ q s, Within p C q s ∧ s.data.isElement = true ∧ s.label = x ∧
        (r.isContent = true → s.children = []) := by
    intro x r mem
    obtain ⟨s, slot, paired, rfl, inside⟩ := exists_host_of_mem_sitesOf mem
    obtain ⟨⟨q, within⟩, element⟩ :=
      within_hostTrees p C s (hostNodes_subset C (List.of_mem_zip paired).1)
    exact ⟨q, s, within, element, rfl, tidy _ paired r inside⟩
  have hosted : ∀ x, (v.toInstance C.label).Hosts x →
      ∃ q s, Within p C q s ∧ s.data.isElement = true ∧ s.label = x := by
    rintro x (⟨b, mem, rfl⟩ | ⟨r, mem, rfl⟩)
    · obtain ⟨y, listed, target, -⟩ := serves.of_mem_bindings (BindingTable.mem_ofList.1 mem)
      obtain ⟨q, s, within, element, label, -⟩ := placed listed
      refine ⟨q, s, within, element, label.trans ?_⟩
      have node := Site.target_node y (.binding b.binding)
      rw [target]
      exact node.symm
    · obtain ⟨t, listed⟩ := serves.of_mem_regions mem
      obtain ⟨q, s, within, element, label, -⟩ := placed listed
      exact ⟨q, s, within, element, label⟩
  have filled : ∀ g, (v.toInstance C.label).Fills g → ∃ q s, Within p C q s ∧ s.label = g ∧
      s.children = [] := by
    rintro g (⟨b, mem, fills⟩ | ⟨r, mem, rfl⟩)
    · obtain ⟨y, listed, target, -⟩ := serves.of_mem_bindings (BindingTable.mem_ofList.1 mem)
      obtain ⟨q, s, within, -, label, empty⟩ := placed listed
      rw [fills] at target
      have content : b.binding.attr = none := by
        cases attr : b.binding.attr with
        | none => rfl
        | some name =>
            rw [Binding.target, attr] at target
            cases target
      rw [Binding.target, content] at target
      cases target
      exact ⟨q, s, within, label, empty (by simp [Reference.isContent, content])⟩
    · obtain ⟨t, listed⟩ := serves.of_mem_regions mem
      obtain ⟨q, s, within, -, label, empty⟩ := placed listed
      exact ⟨q, s, within, label, empty rfl⟩
  refine ⟨⟨_, stands.top⟩, fun x host => ?_, fun x host => ?_, fun g x fills _ above => ?_,
    fun b mem => ?_⟩
  · obtain ⟨q, s, within, element, rfl⟩ := hosted x host
    exact ⟨_, (stands.within within).top, element⟩
  · obtain ⟨q, s, within, -, rfl⟩ := hosted x host
    exact stands.above within.label_mem
  · obtain ⟨q, s, within, rfl, empty⟩ := filled g fills
    by_contra other
    exact f.not_above_of_childless (stands.within within).top (by rw [empty]; rfl)
      (fun same => other same.symm) above
  · obtain ⟨-, -, -, found⟩ := serves.of_mem_bindings (BindingTable.mem_ofList.1 mem)
    exact Handler.builtIn_of_standard found

end Stencil
