import Stencil.Proofs.Render.Making
import Stencil.Proofs.Render.Mold

/-! # Molds of patterns

A pattern has the mold that its prototype and its slots make. Every copy of the pattern is the
copy in the mold at other nodes, and so is the first copy of a template that is built.
-/

namespace Stencil

open Markup NodeTree

open Document Edit View

namespace Environment

variable {env : Environment} {d d' : Document} {host : NodeId} {v : Wiring}

theorem dropMarker_stands (env : Environment) {n : Node} (h : d.Steady)
    (node : d.view host = some n) (element : n.data.isElement = true) {p : Option NodeId}
    {T : NodeTree NodeId} (stands : d.view.Stands p T) (run : env.dropMarker host d = .ok () d') :
    d'.view.Stands p (if env.keepMarkers then T else T.revise host (redata .unmarked)) := by
  unfold dropMarker at run
  cases keep : env.keepMarkers with
  | true =>
      rw [keep] at run
      cases run
      exact stands
  | false =>
      rw [keep] at run
      obtain ⟨tag, own, node'⟩ := exists_element node element
      obtain ⟨e, again, -, there, others⟩ := removeAttribute_ok h.sound node' Marker.host
      have edited := Build.edit_ok again
      rw [if_neg (by simp)] at run
      rw [run] at edited
      cases edited
      refine stands_redata (fun m top => ?_) others T p stands (h.forest.nodup_labels T p stands)
      rw [node'] at top
      cases top
      exact there

/-- Nothing that was there changes when a host is wired. -/
theorem wireSlot_grown (standard : env.handlers = .standard) {inherited : List Pattern}
    {slot : List (Reference CompiledTemplate)} (tidy : CompiledTemplate.TidySlot slot)
    (run : env.wireSlot inherited host slot d = .ok v d') (steady : d.Steady) : Grown [] d d' := by
  induction slot generalizing inherited d v with
  | nil =>
      rw [wireSlot] at run
      cases run
      exact .refl steady _
  | cons r rs ih =>
      rw [wireSlot] at run
      obtain ⟨v₁, d₁, first, run⟩ := of_bind_ok run
      obtain ⟨v₂, d₂, others, run⟩ := of_bind_ok run
      cases run
      have grown : Grown [] d d₁ := by
        cases inherited with
        | nil => exact (wireReference_new standard r tidy.1 first steady).1
        | cons part parts =>
            cases r with
            | binding b => exact (wireReference_new standard (.binding b) trivial
                (by rwa [wireReference] at first ⊢) steady).1
            | template t =>
                rw [wireReference_cons] at first
                obtain ⟨placed, d₂, second, first⟩ := of_bind_ok first
                cases first
                cases region_same second
                exact .refl steady _
      exact grown.trans (ih tidy.2 others grown.steady)

/-- Wiring takes the markers from the hosts of a tree that stands, and leaves the rest of it. -/
theorem wireSlots_stands (standard : env.handlers = .standard)
    {slots : List (List (Reference CompiledTemplate))} (tidy : CompiledTemplate.TidySlots slots)
    {inherited : List Pattern} {size wired : Nat} {hosts : List NodeId} {p : Option NodeId}
    {T : NodeTree NodeId} (run : env.wireSlots inherited size wired hosts slots d = .ok v d')
    (steady : d.Steady) (stands : d.view.Stands p T)
    (elements : ∀ x ∈ hosts, ∃ n, d.view x = some n ∧ n.data.isElement = true) :
    d'.view.Stands p (if env.keepMarkers then T else T.unmark hosts) := by
  induction slots generalizing hosts inherited wired d v T with
  | nil =>
      cases hosts with
      | nil =>
          rw [wireSlots] at run
          cases run
          exact (ite_self T).symm ▸ stands
      | cons host hosts =>
          rw [wireSlots] at run
          cases run
  | cons slot slots ih =>
      cases hosts with
      | nil =>
          rw [wireSlots] at run
          cases run
      | cons host hosts =>
          rw [wireSlots] at run
          obtain ⟨v₁, d₁, first, run⟩ := of_bind_ok run
          obtain ⟨_, d₂, dropped, run⟩ := of_bind_ok run
          obtain ⟨v₂, d₃, others, run⟩ := of_bind_ok run
          cases run
          have grown := wireSlot_grown standard tidy.1 first steady
          obtain ⟨n, node, element⟩ := elements host (by simp)
          have node₁ := grown.others (by simp) node
          have stands₂ := dropMarker_stands env grown.steady node₁ element
            (stands.mono fun _ _ => grown.others (by simp)) dropped
          obtain ⟨e, again, dressed⟩ := dropMarker_dressed env grown.steady node₁ element
          rw [dropped] at again
          cases again
          have whole := ih tidy.2 others dressed.steady stands₂ fun x mem => by
            obtain ⟨m, there, isElement⟩ := elements x (by simp [mem])
            obtain ⟨k, there', same, -⟩ := dressed.links (grown.others (by simp) there)
            exact ⟨k, there', same.trans isElement⟩
          cases keep : env.keepMarkers with
          | true =>
              rw [keep] at whole
              exact whole
          | false =>
              rw [keep] at whole
              exact whole

end Environment

/-! ## Casting -/

namespace Pattern

mutual

/-- The mold of a pattern whose prototypes stand in a view. -/
def Cast (keep : Bool) (u : View) : Pattern → Mold → Prop
  | ⟨compiled, prototype, parts⟩, m =>
      (∃ p P, u.Stands p P ∧ P.label = prototype ∧ m = .of keep P compiled.slots m.parts) ∧
      CompiledTemplate.TidySlots compiled.slots ∧
      CastAll keep u parts m.parts

def CastAll (keep : Bool) (u : View) : List Pattern → List Mold → Prop
  | [], [] => True
  | p :: ps, m :: ms => Cast keep u p m ∧ CastAll keep u ps ms
  | _, _ => False

end

variable {u w : View} {keep : Bool}

mutual

theorem Cast.mono (keeps : ∀ {x n}, u x = some n → w x = some n) :
    (p : Pattern) → (m : Mold) → p.Cast keep u m → p.Cast keep w m
  | ⟨_, _, parts⟩, m, ⟨⟨q, P, stands, facts⟩, tidy, all⟩ =>
      ⟨⟨q, P, stands.mono fun _ _ => keeps, facts⟩, tidy, CastAll.mono keeps parts m.parts all⟩

theorem CastAll.mono (keeps : ∀ {x n}, u x = some n → w x = some n) :
    (ps : List Pattern) → (ms : List Mold) → CastAll keep u ps ms → CastAll keep w ps ms
  | [], [], _ => trivial
  | p :: ps, m :: ms, h => ⟨Cast.mono keeps p m h.1, CastAll.mono keeps ps ms h.2⟩

end

theorem castAll_append {ps qs : List Pattern} {ms ks : List Mold} (h : CastAll keep u ps ms)
    (k : CastAll keep u qs ks) : CastAll keep u (ps ++ qs) (ms ++ ks) := by
  induction ps generalizing ms with
  | nil =>
      cases ms with
      | nil => exact k
      | cons m ms => exact h.elim
  | cons p ps ih =>
      cases ms with
      | nil => exact h.elim
      | cons m ms => exact ⟨h.1, ih h.2⟩

mutual

/-- What is cast in a view is cast in the part of it in which it is wired. -/
theorem Cast.restrict (keeps : ∀ {x n}, u x = some n → w x = some n) :
    (p : Pattern) → (m : Mold) → p.Wired u → p.Cast keep w m → p.Cast keep u m
  | ⟨_, _, parts⟩, m, wired, ⟨⟨q, P, stands, label, same⟩, tidy, all⟩ => by
      obtain ⟨⟨P', ⟨q', stored, -⟩, label', -⟩, -, -, inner⟩ := wired
      obtain rfl := View.stands_unique P' (stored.mono fun _ _ => keeps) stands (label'.trans label.symm)
      exact ⟨⟨q', P', stored, label', same⟩, tidy, CastAll.restrict keeps parts m.parts inner all⟩

theorem CastAll.restrict (keeps : ∀ {x n}, u x = some n → w x = some n) :
    (ps : List Pattern) → (ms : List Mold) → WiredAll u ps → CastAll keep w ps ms →
    CastAll keep u ps ms
  | [], [], _, _ => trivial
  | p :: ps, m :: ms, wired, h =>
      ⟨Cast.restrict keeps p m wired.1 h.1, CastAll.restrict keeps ps ms wired.2 h.2⟩

end

end Pattern

/-- A document shows a sketch of a copy: it is the tree at the root, with numbers where the copy
writes. -/
def Instance.Shows (i : Instance) (f : NodeId → NodeId) (d : Document) (s : Sketch) : Prop :=
  ∃ T, d.tree (f i.root) = .ok T ∧ T.map (i.numbering f) = s

/-- A document shows the copy in a mold at other nodes, with nothing written into it. -/
structure Mold.Cast (m : Mold) (f : NodeId → NodeId) (d : Document) : Prop where
  standard : ∀ b ∈ m.live.bindings, Registry.standard.get? b.binding.kind.tag = some b.handler
  apart : m.live.Apart f
  shows : m.live.Shows f d m.sketch

namespace Environment

variable {env : Environment} {d d' : Document}

/-- Wiring the hosts of a tree that stands gives a copy in the mold of the tree. -/
theorem cast_of_wireSlots (standard : env.handlers = .standard) {C : NodeTree NodeId}
    {slots : List (List (Reference CompiledTemplate))} (tidy : CompiledTemplate.TidySlots slots)
    {inherited : List Pattern} {size wired : Nat} {v : Wiring} {p : Option NodeId}
    (run : env.wireSlots inherited size wired (hostsOf C) slots d = .ok v d') (steady : d.Steady)
    (steady' : d'.Steady) (stands : d.view.Stands p C) (parts : List Mold) :
    ∃ f, v.toInstance C.label = (Mold.of env.keepMarkers C slots parts).live.map f ∧
      (Mold.of env.keepMarkers C slots parts).Cast f d' := by
  have nodup := steady.forest.nodup_labels C p stands
  have distinct := nodup_labels_number 0 C
  obtain ⟨f, same⟩ := exists_map (shape_number 0 C) distinct
  have apart : ∀ x ∈ (C.number 0).labels, ∀ y ∈ (C.number 0).labels, f x = f y → x = y := by
    rw [← same, labels_map] at nodup
    exact fun x hx y hy => List.inj_on_of_nodup_map nodup hx hy
  obtain ⟨placed, handlers⟩ := Instance.of_wired (C.number 0) slots
  have places : ∀ x ∈ (Instance.wired (C.number 0) slots).places, x ∈ (C.number 0).labels :=
    fun x mem => hostsOf_subset _ (placed x mem)
  have apart' : (Instance.wired (C.number 0) slots).Apart f := fun j hj k hk =>
    apart j (places j hj) k (places k hk)
  have serves := (serves_wireSlots standard run).2
  have standing := wireSlots_stands standard tidy run steady stands fun x mem => (stands.host mem).2
  have whole : d'.view.Stands p (((C.number 0).bare env.keepMarkers).map f) := by
    rw [map_bare _ apart, same]
    exact standing
  refine ⟨f, ?_, handlers, apart', ((C.number 0).bare env.keepMarkers).map f, ?_, ?_⟩
  · show v.toInstance C.label = (Instance.wired (C.number 0) slots).map f
    rw [Instance.wired_map, same, Wiring.toInstance, serves.bindings, serves.regions]
    rfl
  · have read := tree_of_stands whole (steady'.forest.nodup_labels _ p whole)
    rwa [label_map, label_bare] at read
  · rw [map_map]
    refine map_congr _ fun x mem => ?_
    rw [labels_bare] at mem
    show (Instance.wired (C.number 0) slots).numbering f (f x) =
      if x ∈ (Instance.wired (C.number 0) slots).places then some x else none
    split
    · exact (Instance.numbering_eq_some apart').2 ⟨‹_›, rfl⟩
    · refine Instance.numbering_eq_none fun hosts => ?_
      obtain ⟨k, listed, equal⟩ := Instance.hosts_map.1 hosts
      rw [apart k (places k listed) x mem equal] at listed
      exact ‹x ∉ _› listed

/-- A copy of a pattern is the copy in its mold at other nodes. -/
theorem instantiate_cast (standard : env.handlers = .standard) {p : Pattern} {m : Mold} {u : View}
    (wired : p.Wired u) (cast : p.Cast env.keepMarkers u m)
    (keeps : ∀ {x n}, u x = some n → d.view x = some n) (steady : d.Steady) :
    ∃ f d', env.instantiate p d = .ok (m.live.map f) d' ∧ m.Cast f d' ∧ (m.live.map f).New d d' ∧
      Confined [f m.live.root] d.view d'.view := by
  obtain ⟨i, d', run, new, confined⟩ := env.instantiate_new standard wired keeps steady
  obtain ⟨⟨slots, skeleton, expression⟩, prototype, inherited⟩ := p
  obtain ⟨⟨q, P, stored, rfl, same⟩, tidy, -⟩ := cast
  have stands : d.view.Stands q P := stored.mono fun _ _ => keeps
  obtain ⟨C, d₁, copied, planted⟩ :=
    copyTree_ok steady.sound.accounted stands (steady.forest.nodup_labels P q stands)
  have steady₁ := steady.planted planted (steady.forest.fits_of_stands P q stands)
  have whole := run
  rw [env.instantiate_eq steady.sound, duplicate, bind_ok (Build.edit_ok copied)] at run
  obtain ⟨v, d₂, wires, run⟩ := of_bind_ok run
  cases run
  rw [wireHosts_stands env inherited _ planted.stands planted.nodup] at wires
  obtain ⟨f, copy, made⟩ := cast_of_wireSlots standard tidy wires steady₁ new.grown.steady
    planted.stands m.parts
  rw [Mold.of_shape planted.shape, ← same] at copy made
  rw [copy] at whole new confined
  exact ⟨f, d', whole, made, new, confined⟩

end Environment

/-! ## Building -/

namespace CompiledTemplate

mutual

/-- The mold of a compiled template. -/
def mold (keep : Bool) : CompiledTemplate → Mold
  | ⟨slots, skeleton, _⟩ =>
      .of keep ((treeOf? skeleton.markup).getD (.node () .fragment [])) slots (moldSlots keep slots)

def moldSlots (keep : Bool) : List (List (Reference CompiledTemplate)) → List Mold
  | [] => []
  | slot :: slots => moldSlot keep slot ++ moldSlots keep slots

def moldSlot (keep : Bool) : List (Reference CompiledTemplate) → List Mold
  | [] => []
  | r :: rs => moldReference keep r ++ moldSlot keep rs

def moldReference (keep : Bool) : Reference CompiledTemplate → List Mold
  | .binding _ => []
  | .template t => [mold keep t]

end

end CompiledTemplate

namespace Environment

variable {env : Environment}

mutual

/-- A template that is assembled has the mold of what it is assembled from, and so has its first
copy. -/
theorem assemble_cast (standard : env.handlers = .standard) :
    (t : CompiledTemplate) → t.Tidy → {d d' : Document} → {p : Pattern} → {i : Instance} →
    env.assemble t d = .ok (p, i) d' → d.Steady →
    p.Cast env.keepMarkers d'.view (t.mold env.keepMarkers) ∧
      ∃ f, i = (t.mold env.keepMarkers).live.map f ∧ (t.mold env.keepMarkers).Cast f d'
  | ⟨slots, skeleton, expression⟩, tidy, d, d', _, _, run, steady => by
      obtain ⟨f, us, P, C, d₁, d₂, v, planted, listed, tree, steady₁, copy, steady₂, wires, rfl, rfl⟩ :=
        of_assemble steady run
      have elements : ∀ x ∈ hostsOf C, ∃ n, d₂.view x = some n ∧ n.data.isElement = true :=
        fun x mem => (copy.stands.host mem).2
      obtain ⟨grown, -⟩ := wireSlots_new standard slots tidy.2 wires steady₂ elements
      have rest : Grown [] d₁ d' := (Grown.of_planted copy steady₂).trans_new grown fun x mem =>
        copy.trades.fresh x (hostsOf_subset C mem) (by simp)
      have parts := wireSlots_cast standard slots tidy.2 wires steady₂ elements
      obtain ⟨g, same, cast⟩ := cast_of_wireSlots standard tidy.2 wires steady₂ grown.steady
        copy.stands (CompiledTemplate.moldSlots env.keepMarkers slots)
      have mold : CompiledTemplate.mold env.keepMarkers ⟨slots, skeleton, expression⟩ =
          .of env.keepMarkers P slots (CompiledTemplate.moldSlots env.keepMarkers slots) := by
        rw [CompiledTemplate.mold, tree, Option.getD_some]
        exact Mold.of_shape (shape_eq_self _) ..
      rw [Mold.of_shape copy.shape, ← mold] at same cast
      refine ⟨⟨⟨some f, P, ?_, rfl, by rw [mold]; rfl⟩, tidy.2, by rw [mold]; exact parts⟩, g, same, cast⟩
      exact (View.standAll_iff.1 planted.stands.2 P listed).mono fun _ _ => rest.others (by simp)

theorem wireSlots_cast (standard : env.handlers = .standard) :
    (slots : List (List (Reference CompiledTemplate))) → CompiledTemplate.TidySlots slots →
    {d d' : Document} → {hosts : List NodeId} → {size wired : Nat} → {v : Wiring} →
    env.wireSlots [] size wired hosts slots d = .ok v d' → d.Steady →
    (∀ x ∈ hosts, ∃ n, d.view x = some n ∧ n.data.isElement = true) →
    Pattern.CastAll env.keepMarkers d'.view v.parts
      (CompiledTemplate.moldSlots env.keepMarkers slots)
  | [], _, d, d', hosts, size, wired, v, run, steady, elements => by
      cases hosts with
      | nil =>
          rw [wireSlots] at run
          cases run
          exact trivial
      | cons host hosts =>
          rw [wireSlots] at run
          cases run
  | slot :: slots, tidy, d, d', hosts, size, wired, v, run, steady, elements => by
      cases hosts with
      | nil =>
          rw [wireSlots] at run
          cases run
      | cons host hosts =>
          rw [wireSlots] at run
          obtain ⟨v₁, d₁, first, run⟩ := of_bind_ok run
          obtain ⟨_, d₂, dropped, run⟩ := of_bind_ok run
          obtain ⟨v₂, d₃, others, run⟩ := of_bind_ok run
          cases run
          rw [List.drop_nil] at others
          obtain ⟨grown₁, u₁, wired₁, added₁⟩ := wireSlot_new standard slot tidy.1 first steady
          obtain ⟨n, node, element⟩ := elements host (by simp)
          obtain ⟨e, again, dressed⟩ := dropMarker_dressed env grown₁.steady
            (grown₁.others (by simp) node) element
          rw [dropped] at again
          cases again
          have elements₂ : ∀ x ∈ hosts, ∃ n, d₂.view x = some n ∧ n.data.isElement = true := by
            intro x mem
            obtain ⟨m, there, isElement⟩ := elements x (by simp [mem])
            obtain ⟨k, there', same, -⟩ := dressed.links (grown₁.others (by simp) there)
            exact ⟨k, there', same.trans isElement⟩
          have grown₃ := (wireSlots_new standard slots tidy.2 others dressed.steady elements₂).1
          have old : ∀ x ∈ host :: hosts, ∃ n, d.view x = some n := fun x mem =>
            (elements x mem).imp fun _ facts => facts.1
          have added : Added u₁ d d' :=
            (added₁.kept dressed.toGrown fun x mem => old x (by simp_all)).kept grown₃
              fun x mem => old x (by simp [mem])
          refine Pattern.castAll_append (Pattern.CastAll.mono added.there _ _ ?_)
            (wireSlots_cast standard slots tidy.2 others dressed.steady elements₂)
          exact Pattern.CastAll.restrict added₁.there _ _ wired₁
            (wireSlot_cast standard slot tidy.1 first steady)

theorem wireSlot_cast (standard : env.handlers = .standard) :
    (slot : List (Reference CompiledTemplate)) → CompiledTemplate.TidySlot slot →
    {d d' : Document} → {host : NodeId} → {v : Wiring} →
    env.wireSlot [] host slot d = .ok v d' → d.Steady →
    Pattern.CastAll env.keepMarkers d'.view v.parts
      (CompiledTemplate.moldSlot env.keepMarkers slot)
  | [], _, d, d', host, v, run, steady => by
      rw [wireSlot] at run
      cases run
      exact trivial
  | r :: rs, tidy, d, d', host, v, run, steady => by
      rw [wireSlot] at run
      obtain ⟨v₁, d₁, first, run⟩ := of_bind_ok run
      obtain ⟨v₂, d₂, others, run⟩ := of_bind_ok run
      cases run
      rw [List.drop_nil] at others
      obtain ⟨grown₁, -⟩ := wireReference_new standard r tidy.1 first steady
      obtain ⟨grown₂, -⟩ := wireSlot_new standard rs tidy.2 others grown₁.steady
      exact Pattern.castAll_append
        (Pattern.CastAll.mono (grown₂.others (by simp)) _ _
          (wireReference_cast standard r tidy.1 first steady))
        (wireSlot_cast standard rs tidy.2 others grown₁.steady)

theorem wireReference_cast (standard : env.handlers = .standard) :
    (r : Reference CompiledTemplate) → CompiledTemplate.TidyReference r →
    {d d' : Document} → {host : NodeId} → {v : Wiring} →
    env.wireReference [] host r d = .ok v d' → d.Steady →
    Pattern.CastAll env.keepMarkers d'.view v.parts
      (CompiledTemplate.moldReference env.keepMarkers r)
  | .binding b, _, d, d', host, v, run, steady => by
      rw [wireReference] at run
      obtain ⟨bound, d₁, first, run⟩ := of_bind_ok run
      cases run
      exact trivial
  | .template t, tidy, d, d', host, v, run, steady => by
      rw [wireReference_nil] at run
      obtain ⟨⟨part, live⟩, d₁, made, run⟩ := of_bind_ok run
      obtain ⟨placed, d₂, second, run⟩ := of_bind_ok run
      cases run
      cases region_same second
      exact ⟨(assemble_cast standard t tidy made steady).1, trivial⟩

end

/-- A template that is built has the mold of what it is built from, and so has its first copy. -/
theorem materialize_cast (standard : env.handlers = .standard) {t : CompiledTemplate} (tidy : t.Tidy)
    {d d' : Document} {p : Pattern} {i : Instance} (run : env.materialize t d = .ok (p, i) d')
    (steady : d.Steady) :
    p.Cast env.keepMarkers d'.view (t.mold env.keepMarkers) ∧
      ∃ f, i = (t.mold env.keepMarkers).live.map f ∧ (t.mold env.keepMarkers).Cast f d' := by
  rw [env.materialize_eq steady.sound.accounted] at run
  exact assemble_cast standard t tidy run steady

end Environment

/-- A template that takes a tree has the mold of the tree, and takes it for the first copy. -/
theorem Template.ofNode_cast {env : Environment} {d d' : Document} {c : CompiledTemplate}
    {r : NodeId} {t : Template} (standard : env.handlers = .standard) (steady : d.Steady)
    (inner : CompiledTemplate.TidySlots c.slots) (run : Template.ofNode env c r d = .ok t d') :
    ∃ m f, t.pattern.Cast t.environment.keepMarkers d'.view m ∧ t.live = m.live.map f ∧
      m.Cast f d' := by
  obtain ⟨T, P, n, d₁, v, -, -, rfl, stands, planted, steady₁, wires, rfl⟩ := of_ofNode steady run
  have stands₁ := planted.trades.stands stands (by simp)
  have elements : ∀ x ∈ hostsOf T, ∃ n, d₁.view x = some n ∧ n.data.isElement = true :=
    fun x mem => (stands₁.host mem).2
  obtain ⟨grown, -⟩ := env.wireSlots_new standard c.slots inner wires steady₁ elements
  obtain ⟨f, live, made⟩ := env.cast_of_wireSlots standard inner wires steady₁ grown.steady stands₁
    (CompiledTemplate.moldSlots env.keepMarkers c.slots)
  refine ⟨_, f, ?_, live, made⟩
  obtain ⟨slots, skeleton, expression⟩ := c
  refine ⟨⟨none, P, planted.stands.congr fun x mem => ?_, rfl, ?_⟩, inner, ?_⟩
  · -- The prototype is new, and so it is not among the hosts of the tree.
    obtain ⟨k, there⟩ := Option.ne_none_iff_exists'.1 (planted.stands.live mem)
    rw [there, grown.others (fun host => ?_) there]
    obtain ⟨-, old, node, -⟩ := stands.host host
    rw [planted.trades.fresh x mem (by simp)] at node
    cases node
  · exact (Mold.of_shape planted.shape ..).symm
  · exact env.wireSlots_cast standard slots inner wires steady₁ elements

end Stencil
