import Stencil.Proofs.Document.Sparing
import Stencil.Proofs.Render.Making

/-! # Bare templates

A template whose kinds are those of the host program becomes bare when every kind is replaced
by that of escaped text. Building and copying do not call handlers: what a registry of any
handlers builds in a document, the standard registry builds from the bare template in the
lenient document, node by node.
-/

namespace Stencil

open Markup Document Edit View

/-! ## Bare forms -/

/-- The binding of escaped text in the same place. -/
def Binding.bare (b : Binding) : Binding := { b with kind := .escaped }

namespace CompiledTemplate

mutual

/-- The template that shows escaped text in the place of all kinds. -/
def bare : CompiledTemplate → CompiledTemplate
  | ⟨slots, skeleton, expression⟩ => ⟨bareSlots slots, skeleton, expression⟩

def bareSlots : List (List (Reference CompiledTemplate)) → List (List (Reference CompiledTemplate))
  | [] => []
  | slot :: slots => bareSlot slot :: bareSlots slots

def bareSlot : List (Reference CompiledTemplate) → List (Reference CompiledTemplate)
  | [] => []
  | r :: rs => bareReference r :: bareSlot rs

def bareReference : Reference CompiledTemplate → Reference CompiledTemplate
  | .binding b => .binding b.bare
  | .template t => .template t.bare

end

theorem bareSlot_eq_map (slot : List (Reference CompiledTemplate)) :
    bareSlot slot = slot.map bareReference := by
  induction slot with
  | nil => rfl
  | cons r rs ih => rw [bareSlot, ih, List.map_cons]

theorem bareSlots_eq_map (slots : List (List (Reference CompiledTemplate))) :
    bareSlots slots = slots.map (List.map bareReference) := by
  induction slots with
  | nil => rfl
  | cons slot slots ih => rw [bareSlots, ih, bareSlot_eq_map, List.map_cons]

@[simp] theorem expression_bare (t : CompiledTemplate) : t.bare.expression = t.expression := by
  obtain ⟨slots, skeleton, expression⟩ := t
  rfl

@[simp] theorem slots_bare (t : CompiledTemplate) : t.bare.slots = bareSlots t.slots := by
  obtain ⟨slots, skeleton, expression⟩ := t
  rfl

@[simp] theorem length_bareSlots (slots : List (List (Reference CompiledTemplate))) :
    (bareSlots slots).length = slots.length := by
  rw [bareSlots_eq_map, List.length_map]

theorem isContent_bareReference (r : Reference CompiledTemplate) :
    (bareReference r).isContent = r.isContent := by
  cases r <;> rfl

theorem isTemplate_bareReference (r : Reference CompiledTemplate) :
    (bareReference r).isTemplate = r.isTemplate := by
  cases r <;> rfl

theorem countP_bareSlot (slot : List (Reference CompiledTemplate)) :
    (bareSlot slot).countP Reference.isTemplate = slot.countP Reference.isTemplate := by
  rw [bareSlot_eq_map, List.countP_map]
  exact List.countP_congr fun r _ => by simp [isTemplate_bareReference]

theorem countP_bareSlots (slots : List (List (Reference CompiledTemplate))) :
    (bareSlots slots).flatten.countP Reference.isTemplate =
      slots.flatten.countP Reference.isTemplate := by
  induction slots with
  | nil => rfl
  | cons slot slots ih =>
      rw [bareSlots, List.flatten_cons, List.flatten_cons, List.countP_append, List.countP_append,
        countP_bareSlot, ih]

/-- Kinds do not matter for a tree to be tidy. -/
theorem tidy_bareSlots {ι : Type} {t : NodeTree ι} {slots : List (List (Reference CompiledTemplate))}
    (h : t.Tidy slots) : t.Tidy (bareSlots slots) := by
  intro pair mem r inside content
  rw [bareSlots_eq_map, List.zip_map_right] at mem
  obtain ⟨⟨host, slot⟩, zipped, rfl⟩ := List.mem_map.1 mem
  obtain ⟨r, listed, rfl⟩ := List.mem_map.1 inside
  exact h (host, slot) zipped r listed ((isContent_bareReference r).symm.trans content)

mutual

theorem Tidy.bare : (t : CompiledTemplate) → t.Tidy → t.bare.Tidy
  | ⟨slots, _, _⟩, ⟨tidy, below⟩ =>
      ⟨fun t tree => tidy_bareSlots (tidy t tree), TidySlots.bare slots below⟩

theorem TidySlots.bare : (slots : List (List (Reference CompiledTemplate))) → TidySlots slots →
    TidySlots (bareSlots slots)
  | [], _ => trivial
  | slot :: slots, ⟨first, others⟩ => ⟨TidySlot.bare slot first, TidySlots.bare slots others⟩

theorem TidySlot.bare : (slot : List (Reference CompiledTemplate)) → TidySlot slot →
    TidySlot (bareSlot slot)
  | [], _ => trivial
  | r :: rs, ⟨first, others⟩ => ⟨TidyReference.bare r first, TidySlot.bare rs others⟩

theorem TidyReference.bare : (r : Reference CompiledTemplate) → TidyReference r →
    TidyReference (bareReference r)
  | .binding _, _ => trivial
  | .template t, tidy => Tidy.bare t tidy

end

end CompiledTemplate

open CompiledTemplate (bareSlots bareSlot bareReference length_bareSlots expression_bare)

/-- The binding at the same place that shows escaped text. -/
def BoundBinding.bare (b : BoundBinding) : BoundBinding where
  binding := b.binding.bare
  target := b.target
  handler := .escaped

theorem BoundBinding.key_bare (b : BoundBinding) : b.bare.binding.key = b.binding.key := rfl

/-- The live tree with escaped text in the place of all kinds. -/
def Instance.bare (i : Instance) : Instance where
  root := i.root
  bindings := i.bindings.map BoundBinding.bare BoundBinding.key_bare
  regions := i.regions

namespace Pattern

mutual

/-- The pattern with escaped text in the place of all kinds. -/
def bare : Pattern → Pattern
  | ⟨compiled, prototype, parts⟩ => ⟨compiled.bare, prototype, bareAll parts⟩

def bareAll : List Pattern → List Pattern
  | [] => []
  | p :: ps => bare p :: bareAll ps

end

theorem bareAll_eq_map (ps : List Pattern) : bareAll ps = ps.map bare := by
  induction ps with
  | nil => rfl
  | cons p ps ih => rw [bareAll, ih, List.map_cons]

@[simp] theorem prototype_bare (p : Pattern) : p.bare.prototype = p.prototype := by
  cases p
  rfl

@[simp] theorem parts_bare (p : Pattern) : p.bare.parts = p.parts.map bare := by
  cases p
  exact bareAll_eq_map _

@[simp] theorem compiled_bare (p : Pattern) : p.bare.compiled = p.compiled.bare := by
  cases p
  rfl

theorem prototype_mem_prototypes (p : Pattern) : p.prototype ∈ p.prototypes := by
  cases p
  exact List.mem_cons_self ..

mutual

@[simp] theorem prototypes_bare : (p : Pattern) → p.bare.prototypes = p.prototypes
  | ⟨_, _, parts⟩ => by rw [bare, prototypes, prototypes, prototypesAll_bareAll parts]

theorem prototypesAll_bareAll : (ps : List Pattern) →
    prototypesAll (bareAll ps) = prototypesAll ps
  | [] => rfl
  | p :: ps => by
      rw [bareAll, prototypesAll, prototypesAll, prototypes_bare p, prototypesAll_bareAll ps]

end

end Pattern

/-- The environment with the standard handlers. -/
def Environment.bare (env : Environment) : Environment := { env with handlers := .standard }

/-- The template with escaped text in the place of all kinds. -/
def Template.bare (t : Template) : Template where
  environment := t.environment.bare
  pattern := t.pattern.bare
  live := t.live.bare

/-- The wiring with escaped text in the place of all kinds. -/
def Wiring.bare (v : Wiring) : Wiring where
  bindings := v.bindings.map BoundBinding.bare
  regions := v.regions
  parts := v.parts.map Pattern.bare

theorem Wiring.toInstance_bare (v : Wiring) (root : NodeId) :
    v.bare.toInstance root = (v.toInstance root).bare := by
  rw [Wiring.toInstance, Instance.bare, Wiring.toInstance, BindingTable.map_ofList]
  rfl

theorem Wiring.bare_append (v w : Wiring) : (v ++ w).bare = v.bare ++ w.bare := by
  show Wiring.bare (Wiring.append v w) = Wiring.append v.bare w.bare
  simp [Wiring.bare, Wiring.append]

theorem Wiring.mirrors_append (v w : Wiring) :
    Mirrors Wiring.bare (pure (v ++ w) : Build Wiring) (pure (v.bare ++ w.bare)) := by
  rw [← Wiring.bare_append]
  exact .pure _ _

/-! ## What wiring finds -/

/-- A kind for which there is a handler. -/
def Reference.Known (env : Environment) : Reference CompiledTemplate → Prop
  | .binding b => ∃ handler, env.handlers.get? b.kind.tag = some handler
  | .template _ => True

/-- A binding whose handler is the one for its kind. -/
def BoundBinding.Found (env : Environment) (b : BoundBinding) : Prop :=
  env.handlers.get? b.binding.kind.tag = some b.handler

/-- All kinds of a pattern and of its parts have handlers. -/
inductive Pattern.Known (env : Environment) : Pattern → Prop where
  | intro {compiled : CompiledTemplate} {prototype : NodeId} {parts : List Pattern}
      (references : ∀ r ∈ compiled.slots.flatten, r.Known env) (inner : ∀ p ∈ parts, Known env p) :
      Known env ⟨compiled, prototype, parts⟩

theorem Pattern.Known.parts {env : Environment} {p : Pattern} (h : p.Known env) :
    ∀ q ∈ p.parts, q.Known env := by
  cases h with
  | intro _ inner => exact inner

/-- What has been wired has handlers for its kinds. -/
structure Wiring.Known (env : Environment) (v : Wiring) : Prop where
  bindings : ∀ b ∈ v.bindings, b.Found env
  parts : ∀ p ∈ v.parts, p.Known env

theorem Wiring.Known.append {env : Environment} {v w : Wiring} (h : v.Known env) (k : w.Known env) :
    (v ++ w).Known env where
  bindings := List.forall_mem_append.2 ⟨h.bindings, k.bindings⟩
  parts := List.forall_mem_append.2 ⟨h.parts, k.parts⟩

/-! ## Runs -/

section Edits

variable {α β : Type} {f : α → β} {e : Edit α} {e' : Edit β}

theorem Mirrors.edit (h : Mirrors f e e') : Mirrors f (Build.edit e) (Build.edit e') := by
  intro d
  rw [Build.edit, Build.edit, h d]
  cases e d <;> rfl

theorem Follows.edit (h : Follows f e e') : Follows f (Build.edit e) (Build.edit e') := by
  intro d a d' run
  cases own : e d with
  | ok b d₁ =>
      rw [Build.edit_ok own] at run
      cases run
      exact Build.edit_ok (h own)
  | error x d₁ =>
      rw [Build.edit, own] at run
      cases run

end Edits

namespace Environment

variable {env : Environment} {d d' : Document}

theorem bind_bare {node : NodeId} {b : Binding} {bound : BoundBinding}
    (run : env.bind node b d = .ok bound d') :
    env.bare.bind node b.bare d.lenient = .ok bound.bare d'.lenient ∧ bound.binding = b ∧
      bound.Found env := by
  cases bind_same run
  rw [Environment.bind] at run
  cases found : env.handlers.get? b.kind.tag with
  | none =>
      rw [found] at run
      cases run
  | some handler =>
      rw [found] at run
      cases run
      exact ⟨rfl, rfl, found⟩

theorem bind_mirrors (node : NodeId) {b : Binding} (known : (Reference.binding b).Known env) :
    Mirrors BoundBinding.bare (env.bind node b) (env.bare.bind node b.bare) := by
  intro d
  obtain ⟨handler, found⟩ := known
  have bound : env.bind node b d = .ok { binding := b, target := b.target node, handler } d := by
    rw [Environment.bind, found]
    rfl
  rw [bound]
  rfl

theorem region_blind (node : NodeId) (expression : String) : Blind (region node expression) := by
  unfold region
  cases Iteration.parse? expression with
  | none => exact .throw _ _
  | some i => exact .pure _ _

theorem dropMarker_blind (env : Environment) (node : NodeId) :
    Mirrors (fun u => u) (env.dropMarker node) (env.bare.dropMarker node) := by
  have same : env.bare.dropMarker node = env.dropMarker node := rfl
  rw [same, dropMarker]
  cases env.keepMarkers with
  | true => exact .pure _ _
  | false => exact (Blind.removeAttribute node Marker.host).edit

theorem hostsIn_blind (root : NodeId) : Blind (hostsIn root) := by
  refine Mirrors.edit (Blind.ask fun d => ?_)
  show hostsOf <$> d.lenient.treeWithin _ root = hostsOf <$> d.treeWithin _ root
  rw [treeWithin_lenient]
  rfl

theorem plantPrototype_follows (markup : String) :
    Follows (fun root => root) (plantPrototype markup) (plantPrototype markup) := by
  refine (parseMarkup_follows markup).edit.bind fun fragment => ?_
  refine (Blind.ask fun _ => rfl).edit.follows.bind fun first => ?_
  cases first with
  | none => exact (Mirrors.throw _ _).follows
  | some root => exact .pure _ _

mutual

/-- A template that is assembled is assembled bare in the lenient document. -/
theorem assemble_bare : (t : CompiledTemplate) → {d d' : Document} → {p : Pattern} →
    {i : Instance} → env.assemble t d = .ok (p, i) d' →
    env.bare.assemble t.bare d.lenient = .ok (p.bare, i.bare) d'.lenient ∧ p.Known env ∧
      ∀ b ∈ i.bindings, b.Found env
  | ⟨slots, skeleton, expression⟩, d, d', _, _, run => by
      rw [assemble] at run
      obtain ⟨prototype, d₁, made, run⟩ := of_bind_ok run
      obtain ⟨root, d₂, copied, run⟩ := of_bind_ok run
      obtain ⟨hosts, d₃, found, run⟩ := of_bind_ok run
      obtain ⟨v, d₄, wires, run⟩ := of_bind_ok run
      cases run
      obtain ⟨same, references, known⟩ := wireSlots_bare slots (List.forall_mem_nil _) wires
      rw [List.map_nil] at same
      refine ⟨?_, .intro references known.parts, fun b mem =>
        known.bindings b (BindingTable.mem_ofList.1 mem)⟩
      rw [CompiledTemplate.bare, assemble, bind_ok (plantPrototype_follows _ made),
        bind_ok ((Blind.copyTree prototype).edit.ok copied), bind_ok ((hostsIn_blind root).ok found),
        length_bareSlots, bind_ok same, Pattern.bare, Pattern.bareAll_eq_map, Wiring.toInstance_bare]
      rfl

theorem wireSlots_bare : (slots : List (List (Reference CompiledTemplate))) → {d d' : Document} →
    {inherited : List Pattern} → {hosts : List NodeId} → {size wired : Nat} → {v : Wiring} →
    (∀ p ∈ inherited, p.Known env) → env.wireSlots inherited size wired hosts slots d = .ok v d' →
    env.bare.wireSlots (inherited.map Pattern.bare) size wired hosts (bareSlots slots) d.lenient =
        .ok v.bare d'.lenient ∧ (∀ r ∈ slots.flatten, r.Known env) ∧ v.Known env
  | [], d, d', inherited, hosts, size, wired, v, known, run => by
      cases hosts with
      | nil =>
          rw [wireSlots] at run
          cases run
          refine ⟨?_, List.forall_mem_nil _, List.forall_mem_nil _, List.forall_mem_nil _⟩
          rw [bareSlots, wireSlots]
          rfl
      | cons host hosts =>
          rw [wireSlots] at run
          cases run
  | slot :: slots, d, d', inherited, hosts, size, wired, v, known, run => by
      cases hosts with
      | nil =>
          rw [wireSlots] at run
          cases run
      | cons host hosts =>
          rw [wireSlots] at run
          obtain ⟨v₁, d₁, first, run⟩ := of_bind_ok run
          obtain ⟨_, d₂, dropped, run⟩ := of_bind_ok run
          obtain ⟨v₂, d₃, others, run⟩ := of_bind_ok run
          cases run
          obtain ⟨same₁, references₁, known₁⟩ := wireSlot_bare slot known first
          obtain ⟨same₂, references₂, known₂⟩ :=
            wireSlots_bare slots (fun p mem => known p (List.mem_of_mem_drop mem)) others
          refine ⟨?_, List.forall_mem_append.2 ⟨references₁, references₂⟩, known₁.append known₂⟩
          rw [List.map_drop] at same₂
          rw [bareSlots, wireSlots, bind_ok same₁, bind_ok ((env.dropMarker_blind host).ok dropped),
            Wiring.bare, List.length_map, bind_ok same₂, Wiring.bare_append]
          rfl

theorem wireSlot_bare : (slot : List (Reference CompiledTemplate)) → {d d' : Document} →
    {inherited : List Pattern} → {host : NodeId} → {v : Wiring} →
    (∀ p ∈ inherited, p.Known env) → env.wireSlot inherited host slot d = .ok v d' →
    env.bare.wireSlot (inherited.map Pattern.bare) host (bareSlot slot) d.lenient =
        .ok v.bare d'.lenient ∧ (∀ r ∈ slot, r.Known env) ∧ v.Known env
  | [], d, d', inherited, host, v, known, run => by
      rw [wireSlot] at run
      cases run
      refine ⟨?_, List.forall_mem_nil _, List.forall_mem_nil _, List.forall_mem_nil _⟩
      rw [bareSlot, wireSlot]
      rfl
  | r :: rs, d, d', inherited, host, v, known, run => by
      rw [wireSlot] at run
      obtain ⟨v₁, d₁, first, run⟩ := of_bind_ok run
      obtain ⟨v₂, d₂, others, run⟩ := of_bind_ok run
      cases run
      obtain ⟨same₁, reference, known₁⟩ := wireReference_bare r known first
      obtain ⟨same₂, references, known₂⟩ :=
        wireSlot_bare rs (fun p mem => known p (List.mem_of_mem_drop mem)) others
      refine ⟨?_, List.forall_mem_cons.2 ⟨reference, references⟩, known₁.append known₂⟩
      rw [List.map_drop] at same₂
      rw [bareSlot, wireSlot, bind_ok same₁, Wiring.bare, List.length_map, bind_ok same₂,
        Wiring.bare_append]
      rfl

theorem wireReference_bare : (r : Reference CompiledTemplate) → {d d' : Document} →
    {inherited : List Pattern} → {host : NodeId} → {v : Wiring} →
    (∀ p ∈ inherited, p.Known env) → env.wireReference inherited host r d = .ok v d' →
    env.bare.wireReference (inherited.map Pattern.bare) host (bareReference r) d.lenient =
        .ok v.bare d'.lenient ∧ r.Known env ∧ v.Known env
  | .binding b, d, d', inherited, host, v, known, run => by
      rw [wireReference] at run
      obtain ⟨bound, d₁, first, run⟩ := of_bind_ok run
      cases run
      obtain ⟨same, rfl, found⟩ := bind_bare first
      refine ⟨?_, ⟨_, found⟩, List.forall_mem_singleton.2 found, List.forall_mem_nil _⟩
      rw [bareReference, wireReference, bind_ok same]
      rfl
  | .template t, d, d', [], host, v, known, run => by
      rw [wireReference_nil] at run
      obtain ⟨⟨part, live⟩, d₁, made, run⟩ := of_bind_ok run
      obtain ⟨placed, d₂, second, run⟩ := of_bind_ok run
      cases run
      obtain ⟨same, knownPart, -⟩ := assemble_bare t made
      refine ⟨?_, trivial, List.forall_mem_nil _, List.forall_mem_singleton.2 knownPart⟩
      rw [bareReference, List.map_nil, wireReference_nil, bind_ok same, expression_bare,
        bind_ok ((region_blind host _).ok second)]
      rfl
  | .template t, d, d', part :: others, host, v, known, run => by
      rw [wireReference_cons] at run
      obtain ⟨placed, d₂, second, run⟩ := of_bind_ok run
      cases run
      refine ⟨?_, trivial, List.forall_mem_nil _, List.forall_mem_singleton.2 (known part (by simp))⟩
      rw [bareReference, List.map_cons, wireReference_cons, expression_bare,
        bind_ok ((region_blind host _).ok second)]
      rfl

end

/-! ## Copies -/

theorem length_parts_wireReference {inherited : List Pattern} {host : NodeId}
    {r : Reference CompiledTemplate} {v : Wiring}
    (run : env.wireReference inherited host r d = .ok v d') :
    v.parts.length = [r].countP Reference.isTemplate := by
  cases r with
  | binding b =>
      rw [wireReference] at run
      obtain ⟨bound, d₁, -, run⟩ := of_bind_ok run
      cases run
      rfl
  | template t =>
      cases inherited with
      | nil =>
          rw [wireReference_nil] at run
          obtain ⟨made, d₁, -, run⟩ := of_bind_ok run
          obtain ⟨placed, d₂, -, run⟩ := of_bind_ok run
          cases run
          rfl
      | cons part others =>
          rw [wireReference_cons] at run
          obtain ⟨placed, d₁, -, run⟩ := of_bind_ok run
          cases run
          rfl

theorem length_parts_wireSlot {slot : List (Reference CompiledTemplate)} {host : NodeId}
    {inherited : List Pattern} {v : Wiring} (run : env.wireSlot inherited host slot d = .ok v d') :
    v.parts.length = slot.countP Reference.isTemplate := by
  induction slot generalizing inherited d v with
  | nil =>
      rw [wireSlot] at run
      cases run
      rfl
  | cons r rs ih =>
      rw [wireSlot] at run
      obtain ⟨v₁, d₁, first, run⟩ := of_bind_ok run
      obtain ⟨v₂, d₂, others, run⟩ := of_bind_ok run
      cases run
      rw [← List.singleton_append, List.countP_append, ← length_parts_wireReference first, ← ih others]
      exact List.length_append

/-- A reference whose pattern is inherited is wired alike. -/
theorem wireReference_mirrors (host : NodeId) {r : Reference CompiledTemplate} (known : r.Known env)
    {inherited : List Pattern} (enough : [r].countP Reference.isTemplate ≤ inherited.length) :
    Mirrors Wiring.bare (env.wireReference inherited host r)
      (env.bare.wireReference (inherited.map Pattern.bare) host (bareReference r)) := by
  cases r with
  | binding b =>
      rw [bareReference, wireReference, wireReference]
      exact (bind_mirrors host known).bind fun bound => .pure _ _
  | template t =>
      cases inherited with
      | nil => simp [Reference.isTemplate] at enough
      | cons part others =>
          rw [bareReference, List.map_cons, wireReference_cons, wireReference_cons, expression_bare]
          exact (region_blind host _).bind fun placed => .pure _ _

theorem wireSlot_mirrors (host : NodeId) {slot : List (Reference CompiledTemplate)}
    (known : ∀ r ∈ slot, r.Known env) {inherited : List Pattern}
    (enough : slot.countP Reference.isTemplate ≤ inherited.length) :
    Mirrors Wiring.bare (env.wireSlot inherited host slot)
      (env.bare.wireSlot (inherited.map Pattern.bare) host (bareSlot slot)) := by
  induction slot generalizing inherited with
  | nil =>
      rw [bareSlot, wireSlot, wireSlot]
      exact .pure _ _
  | cons r rs ih =>
      obtain ⟨first, others⟩ := List.forall_mem_cons.1 known
      rw [← List.singleton_append, List.countP_append] at enough
      have room : [r].countP Reference.isTemplate ≤ inherited.length := by omega
      rw [bareSlot, wireSlot, wireSlot]
      refine (wireReference_mirrors host first room).bind_of fun v d d' run => ?_
      have left : rs.countP Reference.isTemplate ≤ (inherited.drop v.parts.length).length := by
        rw [List.length_drop, length_parts_wireReference run]
        omega
      rw [Wiring.bare, List.length_map, ← List.map_drop]
      refine (ih others left).bind fun w => ?_
      exact Wiring.mirrors_append v w

/-- With a pattern for each template all hosts are wired alike. -/
theorem wireSlots_mirrors {slots : List (List (Reference CompiledTemplate))}
    (known : ∀ r ∈ slots.flatten, r.Known env) {inherited : List Pattern}
    (enough : slots.flatten.countP Reference.isTemplate ≤ inherited.length) (size wired : Nat)
    (hosts : List NodeId) :
    Mirrors Wiring.bare (env.wireSlots inherited size wired hosts slots)
      (env.bare.wireSlots (inherited.map Pattern.bare) size wired hosts (bareSlots slots)) := by
  induction slots generalizing inherited wired hosts with
  | nil =>
      cases hosts with
      | nil =>
          rw [bareSlots, wireSlots, wireSlots]
          exact .pure _ _
      | cons host hosts =>
          rw [bareSlots, wireSlots, wireSlots]
          exact .throw _ _
  | cons slot slots ih =>
      rw [List.flatten_cons] at known enough
      obtain ⟨first, others⟩ := List.forall_mem_append.1 known
      rw [List.countP_append] at enough
      have room : slot.countP Reference.isTemplate ≤ inherited.length := by omega
      cases hosts with
      | nil =>
          rw [bareSlots, wireSlots, wireSlots, length_bareSlots]
          exact .throw _ _
      | cons host hosts =>
          rw [bareSlots, wireSlots, wireSlots]
          refine (wireSlot_mirrors host first room).bind_of fun v d d' run => ?_
          have left : slots.flatten.countP Reference.isTemplate ≤
              (inherited.drop v.parts.length).length := by
            rw [List.length_drop, length_parts_wireSlot run]
            omega
          refine (env.dropMarker_blind host).bind fun _ => ?_
          rw [Wiring.bare, List.length_map, ← List.map_drop]
          refine (ih others left (wired + 1) hosts).bind fun w => ?_
          exact Wiring.mirrors_append v w

/-- A pattern with the parts that it needs is copied alike. -/
theorem duplicate_mirrors {p : Pattern} (known : p.Known env)
    (enough : p.compiled.slots.flatten.countP Reference.isTemplate ≤ p.parts.length) :
    Mirrors Instance.bare (env.duplicate p) (env.bare.duplicate p.bare) := by
  obtain ⟨compiled, prototype, parts⟩ := p
  cases known with
  | intro references inner =>
      unfold duplicate wireHosts
      rw [Pattern.parts_bare, Pattern.prototype_bare, Pattern.compiled_bare,
        CompiledTemplate.hostCount, CompiledTemplate.hostCount, CompiledTemplate.slots_bare,
        length_bareSlots]
      refine (Blind.copyTree prototype).edit.bind fun root => ?_
      refine Mirrors.bind ((hostsIn_blind root).bind fun hosts =>
        wireSlots_mirrors references enough _ 0 hosts) fun v => ?_
      rw [Wiring.toInstance_bare]
      exact Mirrors.pure Instance.bare (v.toInstance root)

theorem wireHosts_bare {inherited : List Pattern} {c : CompiledTemplate} {root : NodeId} {v : Wiring}
    (known : ∀ p ∈ inherited, p.Known env) (run : env.wireHosts inherited c root d = .ok v d') :
    env.bare.wireHosts (inherited.map Pattern.bare) c.bare root d.lenient = .ok v.bare d'.lenient ∧
      (∀ r ∈ c.slots.flatten, r.Known env) ∧ v.Known env := by
  obtain ⟨hosts, d₁, found, run⟩ := of_bind_ok run
  obtain ⟨same, references, own⟩ := wireSlots_bare _ known run
  refine ⟨?_, references, own⟩
  rw [wireHosts, bind_ok ((hostsIn_blind root).ok found), CompiledTemplate.hostCount,
    CompiledTemplate.slots_bare, length_bareSlots]
  exact same

/-- A copy is made bare in the lenient document, and has the handlers for its kinds. -/
theorem instantiate_bare {p : Pattern} {i : Instance} (sound : d.Sound) (known : p.Known env)
    (run : env.instantiate p d = .ok i d') :
    env.bare.instantiate p.bare d.lenient = .ok i.bare d'.lenient ∧
      ∀ b ∈ i.bindings, b.Found env := by
  rw [env.instantiate_eq sound] at run
  rw [env.bare.instantiate_eq (sound_lenient.2 sound)]
  obtain ⟨root, d₁, copied, run⟩ := of_bind_ok run
  obtain ⟨v, d₂, wires, run⟩ := of_bind_ok run
  cases run
  obtain ⟨same, -, own⟩ := wireHosts_bare known.parts wires
  refine ⟨?_, fun b mem => own.bindings b (BindingTable.mem_ofList.1 mem)⟩
  rw [duplicate, Pattern.prototype_bare, bind_ok ((Blind.copyTree p.prototype).edit.ok copied),
    Pattern.parts_bare, Pattern.compiled_bare, bind_ok same, Wiring.toInstance_bare]
  rfl

end Environment

/-! ## Templates -/

namespace Template

variable {env : Environment} {d d' : Document} {t s : Template} {c : CompiledTemplate}

/-- All kinds of a template have handlers, and its bindings have these. -/
structure Known (t : Template) : Prop where
  pattern : t.pattern.Known t.environment
  live : ∀ b ∈ t.live.bindings, b.Found t.environment

theorem ofCompiled_bare (sound : d.Sound) (run : ofCompiled env c d = .ok t d') :
    ofCompiled env.bare c.bare d.lenient = .ok t.bare d'.lenient ∧ t.environment = env ∧
      t.Known := by
  obtain ⟨made, rfl⟩ := of_ofCompiled run
  rw [t.environment.materialize_eq sound.accounted] at made
  obtain ⟨same, pattern, live⟩ := t.environment.assemble_bare c made
  rw [← t.environment.bare.materialize_eq (sound_lenient.2 sound).accounted] at same
  refine ⟨?_, rfl, pattern, live⟩
  unfold ofCompiled
  rw [bind_ok same]
  rfl

theorem ofNode_bare {r : NodeId} (sound : d.Sound) (run : ofNode env c r d = .ok t d') :
    ofNode env.bare c.bare r d.lenient = .ok t.bare d'.lenient ∧ t.environment = env ∧
      t.Known := by
  rw [ofNode_eq env sound] at run
  rw [ofNode_eq env.bare (sound_lenient.2 sound)]
  obtain ⟨prototype, d₁, copied, run⟩ := of_bind_ok run
  obtain ⟨v, d₂, wires, run⟩ := of_bind_ok run
  cases run
  obtain ⟨same, references, known⟩ := env.wireHosts_bare (List.forall_mem_nil _) wires
  refine ⟨?_, rfl, .intro references known.parts, fun b mem =>
    known.bindings b (BindingTable.mem_ofList.1 mem)⟩
  rw [List.map_nil] at same
  rw [bind_ok ((Blind.copyTree r).edit.ok copied), bind_ok same, Template.bare, Pattern.bare,
    Pattern.bareAll_eq_map, Wiring.toInstance_bare]
  rfl

theorem clone_bare (sound : d.Sound) (known : t.Known) (run : t.clone d = .ok s d') :
    t.bare.clone d.lenient = .ok s.bare d'.lenient ∧ s.environment = t.environment ∧
      s.pattern = t.pattern ∧ s.Known := by
  obtain ⟨made, environment, pattern⟩ := of_clone run
  obtain ⟨same, found⟩ := t.environment.instantiate_bare sound known.pattern made
  refine ⟨?_, environment, pattern, ?_, ?_⟩
  · unfold clone
    refine (bind_ok same).trans ?_
    rw [Template.bare, Template.bare, environment, pattern]
    rfl
  · rw [environment, pattern]
    exact known.pattern
  · rw [environment]
    exact found

end Template

end Stencil
