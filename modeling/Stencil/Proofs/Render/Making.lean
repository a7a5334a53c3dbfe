import Stencil.Proofs.Render.Copies

/-! # Making tidy templates

Where a tidy template is built, or takes a tree that is there, its pattern is wired among new
nodes, its live tree is settled, and nothing that was there changes but the hosts of a tree
that has been taken.
-/

namespace Stencil

open Markup NodeTree Document Edit View

/-! ## New nodes -/

/-- Nodes that have come, and are still there. -/
structure Document.Added (u : View) (d d' : Document) : Prop where
  fresh : ∀ {x n}, u x = some n → d.view x = none
  there : ∀ {x n}, u x = some n → d'.view x = some n

namespace Document.Added

variable {u w : View} {d d' d'' : Document} {hosts : List NodeId}

theorem nothing (d d' : Document) : Added (fun _ => none) d d' := ⟨nofun, nofun⟩

theorem of_planted {ι : Type} {p : Option NodeId} {t : NodeTree ι} {s : NodeTree NodeId}
    (planted : Planted d d' p t s) : Added (View.only s.labels d'.view) d d' where
  fresh node := planted.trades.fresh _ (View.only_eq_some node).1 (by simp)
  there node := (View.only_eq_some node).2

/-- Hosts that were there before are none of the new nodes. -/
theorem kept (h : Added u d d') (grown : Grown hosts d' d'')
    (old : ∀ x ∈ hosts, ∃ n, d.view x = some n) : Added u d d'' where
  fresh := h.fresh
  there {x n} node := by
    refine grown.others (fun mem => ?_) (h.there node)
    obtain ⟨m, alive⟩ := old x mem
    rw [h.fresh node] at alive
    cases alive

theorem later (grown : Grown hosts d d') (h : Added u d' d'') : Added u d d'' where
  fresh node := grown.fresh (h.fresh node)
  there := h.there

theorem join (h : Added u d d') (k : Added w d d') : Added (u.join w) d d' := by
  refine ⟨fun {x n} node => ?_, fun {x n} node => ?_⟩ <;> cases own : u x with
  | some m =>
      rw [View.join_left own] at node
      cases node
      first | exact h.fresh own | exact h.there own
  | none =>
      rw [View.join_right own] at node
      first | exact k.fresh node | exact k.there node

/-- Where both have a node it is the same. -/
theorem join_right (h : Added u d d') (k : Added w d d') {x : NodeId} {n : Node}
    (node : w x = some n) : (u.join w) x = some n := by
  cases own : u x with
  | none => rw [View.join_right own, node]
  | some m =>
      have same := h.there own
      rw [k.there node] at same
      rw [View.join_left own, same]

end Document.Added

/-- A pattern that is wired among new nodes, none of them below a node. -/
def Pattern.Laid (p : Pattern) (root : NodeId) (d d' : Document) : Prop :=
  ∃ u, p.Wired u ∧ Added u d d' ∧ ∀ {x n}, u x = some n → ¬d'.view.Above root x

namespace Environment

variable {env : Environment} {d d' : Document}

/-! ## Wiring -/

/-- Wiring the hosts of a standing tree with new patterns gives a settled live tree and a
pattern, given what the building of the parts gives. -/
theorem wire_settled (standard : env.handlers = .standard) {p : Option NodeId}
    {C : NodeTree NodeId} {slots : List (List (Reference CompiledTemplate))} {size : Nat}
    {v : Wiring} (steady : d.Steady) (stands : d.view.Stands p C) (tidy : C.Tidy slots)
    (run : env.wireSlots [] size 0 (hostsOf C) slots d = .ok v d')
    (grown : Grown (hostsOf C) d d') :
    (v.toInstance C.label).Settled d'.view ∧ (hostsOf C).length = slots.length ∧
      (∀ r ∈ slots.flatten, r.Wirable) ∧
      slots.flatten.countP Reference.isTemplate ≤ v.parts.length := by
  obtain ⟨same, serves⟩ := serves_wireSlots standard run
  have flat := map_snd_sitesOf (hostsOf C) slots same
  refine ⟨(settled_of_serves steady.forest stands tidy serves).grown steady grown, same,
    fun r mem => ?_, ?_⟩
  · rw [← flat] at mem
    obtain ⟨site, listed, rfl⟩ := List.mem_map.1 mem
    exact serves.wirable site listed
  · rw [serves.parts, ← flat, List.countP_map]
    exact Nat.le_refl _

/-- Assembling plants the prototype, copies it and wires the copy. -/
theorem of_assemble {slots : List (List (Reference CompiledTemplate))} {skeleton : Skeleton}
    {expression : Option String} {p : Pattern} {i : Instance} (steady : d.Steady)
    (run : env.assemble ⟨slots, skeleton, expression⟩ d = .ok (p, i) d') :
    ∃ f us P C d₁ d₂ v, Planted d d₁ none (.node () .fragment (parse skeleton.markup).1)
        (.node f .fragment us) ∧ P ∈ us ∧
      CompiledTemplate.treeOf? skeleton.markup = some P.shape ∧ d₁.Steady ∧
      Planted d₁ d₂ none P C ∧ d₂.Steady ∧
      env.wireSlots [] slots.length 0 (hostsOf C) slots d₂ = .ok v d' ∧
      p = ⟨⟨slots, skeleton, expression⟩, P.label, v.parts⟩ ∧ i = v.toInstance C.label := by
  rw [assemble] at run
  obtain ⟨prototype, d₁, made, run⟩ := of_bind_ok run
  obtain ⟨root, d₂, copied, run⟩ := of_bind_ok run
  obtain ⟨hosts, d₃, found, run⟩ := of_bind_ok run
  obtain ⟨v, d₄, wires, run⟩ := of_bind_ok run
  cases run
  obtain ⟨f, us, e, planted, tree, plant⟩ :=
    plantPrototype_planted steady.sound.accounted (.inl steady.lenient)
  rw [made] at plant
  cases first : us.find? fun t => t.data.isElement with
  | none =>
      rw [first] at plant
      cases plant
  | some P =>
      rw [first] at plant tree
      cases plant
      have steady₁ := steady.planted planted
        ⟨List.nodup_nil, fun _ => rfl, fitAll_parse skeleton.markup⟩
      have listed := List.mem_of_find?_eq_some first
      have stands := View.standAll_iff.1 planted.stands.2 P listed
      obtain ⟨C, e₂, again, copy⟩ := copyTree_ok steady₁.sound.accounted stands
        (steady₁.forest.nodup_labels P _ stands)
      rw [Build.edit_ok again] at copied
      cases copied
      rw [hostsIn_stands copy.stands copy.nodup] at found
      cases found
      exact ⟨f, us, P, C, d₁, d₂, v, planted, listed, tree, steady₁, copy,
        steady₁.planted copy (steady₁.forest.fits_of_stands P _ stands), wires, rfl, rfl⟩

mutual

/-- A tidy template that is assembled stands beside all that was there. -/
theorem assemble_new (standard : env.handlers = .standard) :
    (t : CompiledTemplate) → t.Tidy → {d d' : Document} → {p : Pattern} → {i : Instance} →
    env.assemble t d = .ok (p, i) d' → d.Steady → i.New d d' ∧ p.Laid i.root d d'
  | ⟨slots, skeleton, expression⟩, tidy, d, d', _, _, run, steady => by
      obtain ⟨f, us, P, C, d₁, d₂, v, planted, listed, tree, steady₁, copy, steady₂, wires, rfl, rfl⟩ :=
        of_assemble steady run
      have tidyP : P.Tidy slots := tidy_shape.1 (tidy.1 P.shape tree)
      obtain ⟨grown, u, wired, added⟩ := wireSlots_new standard slots tidy.2 wires steady₂
        fun x mem => (copy.stands.host mem).2
      obtain ⟨settled, length, wirable, enough⟩ := wire_settled standard steady₂ copy.stands
        (tidy_shape.1 (copy.shape ▸ tidy_shape.2 tidyP)) wires grown
      have old := Grown.of_planted planted steady₁
      have copied := Grown.of_planted copy steady₂
      have rest : Grown [] d₁ d' := copied.trans_new grown fun x mem =>
        copy.trades.fresh x (hostsOf_subset C mem) (by simp)
      obtain ⟨m, top, -, parent, -⟩ := grown.links copy.stands.top
      have first := (Added.of_planted planted).kept rest (by simp)
      have more := (added.later copied).later old
      have stored : Pattern.Stored (View.only (node f .fragment us).labels d₁.view) P := by
        have only := planted.stands.only
        refine ⟨some f, View.standAll_iff.1 only.2 P listed, fun g same => ?_⟩
        cases same
        exact ⟨_, only.1, rfl⟩
      refine ⟨⟨old.trans rest, settled,
        old.fresh (copy.trades.fresh _ (label_mem_labels C) (by simp)), m, top, parent⟩, _,
        ⟨⟨P, stored.mono View.join_left, rfl, tidyP, ?_⟩, wirable, enough,
          Pattern.WiredAll.mono (first.join_right more) _ wired⟩, first.join more, fun {x n} node => ?_⟩
      · rw [← length_hostsOf copy.shape, length]
      · -- The nodes of the prototype were there before the copy, those of the parts came later.
        cases own : View.only (NodeTree.node f .fragment us).labels d₁.view x with
        | some k =>
            have there := (View.only_eq_some own).2
            show ¬d'.view.Above C.label x
            rw [grown.above_iff steady₂ (copy.trades.kept there (by simp))]
            exact copy.trades.not_above steady₁.forest (label_mem_labels C) there
        | none =>
            rw [View.join_right own] at node
            exact grown.not_above_new steady₂ copy.stands.top (added.fresh node)

theorem wireSlots_new (standard : env.handlers = .standard) :
    (slots : List (List (Reference CompiledTemplate))) → CompiledTemplate.TidySlots slots →
    {d d' : Document} → {hosts : List NodeId} → {size wired : Nat} → {v : Wiring} →
    env.wireSlots [] size wired hosts slots d = .ok v d' → d.Steady →
    (∀ x ∈ hosts, ∃ n, d.view x = some n ∧ n.data.isElement = true) →
    Grown hosts d d' ∧ ∃ u, Pattern.WiredAll u v.parts ∧ Added u d d'
  | [], _, d, d', hosts, size, wired, v, run, steady, elements => by
      cases hosts with
      | nil =>
          rw [wireSlots] at run
          cases run
          exact ⟨.refl steady _, _, trivial, .nothing ..⟩
      | cons host hosts =>
          rw [wireSlots] at run
          cases run
  | slot :: slots, tidy, d, d', hosts, size, wired, v, run, steady, elements => by
      cases hosts with
      | nil =>
          rw [wireSlots] at run
          cases run
      | cons host hosts =>
          rw [wireSlots] at run
          obtain ⟨v₁, d₁, first, run⟩ := of_bind_ok run
          obtain ⟨_, d₂, dropped, run⟩ := of_bind_ok run
          obtain ⟨v₂, d₃, others, run⟩ := of_bind_ok run
          cases run
          rw [List.drop_nil] at others
          obtain ⟨grown₁, u₁, wired₁, added₁⟩ := wireSlot_new standard slot tidy.1 first steady
          obtain ⟨n, node, element⟩ := elements host (by simp)
          have node₁ := grown₁.others (by simp) node
          obtain ⟨e, again, dressed⟩ := dropMarker_dressed env grown₁.steady node₁ element
          rw [dropped] at again
          cases again
          have grown₂ := (grown₁.mono (List.nil_subset [host])).trans dressed.toGrown
          obtain ⟨grown₃, u₂, wired₂, added₂⟩ := wireSlots_new standard slots tidy.2 others
            dressed.steady fun x mem => by
              obtain ⟨m, there, isElement⟩ := elements x (by simp [mem])
              obtain ⟨k, there', same, -⟩ := grown₂.links there
              exact ⟨k, there', same.trans isElement⟩
          have old : ∀ x ∈ host :: hosts, ∃ n, d.view x = some n := fun x mem =>
            (elements x mem).imp fun _ facts => facts.1
          have added : Added u₁ d d' :=
            (added₁.kept dressed.toGrown fun x mem => old x (by simp_all)).kept grown₃
              fun x mem => old x (by simp [mem])
          have more : Added u₂ d d' := added₂.later grown₂
          exact ⟨(grown₂.mono (by simp)).trans (grown₃.mono (by simp)), _,
            Pattern.wiredAll_append (Pattern.WiredAll.mono View.join_left _ wired₁)
              (Pattern.WiredAll.mono (added.join_right more) _ wired₂), added.join more⟩

theorem wireSlot_new (standard : env.handlers = .standard) :
    (slot : List (Reference CompiledTemplate)) → CompiledTemplate.TidySlot slot →
    {d d' : Document} → {host : NodeId} → {v : Wiring} →
    env.wireSlot [] host slot d = .ok v d' → d.Steady →
    Grown [] d d' ∧ ∃ u, Pattern.WiredAll u v.parts ∧ Added u d d'
  | [], _, d, d', host, v, run, steady => by
      rw [wireSlot] at run
      cases run
      exact ⟨.refl steady _, _, trivial, .nothing ..⟩
  | r :: rs, tidy, d, d', host, v, run, steady => by
      rw [wireSlot] at run
      obtain ⟨v₁, d₁, first, run⟩ := of_bind_ok run
      obtain ⟨v₂, d₂, others, run⟩ := of_bind_ok run
      cases run
      rw [List.drop_nil] at others
      obtain ⟨grown₁, u₁, wired₁, added₁⟩ := wireReference_new standard r tidy.1 first steady
      obtain ⟨grown₂, u₂, wired₂, added₂⟩ := wireSlot_new standard rs tidy.2 others grown₁.steady
      have added : Added u₁ d d' := added₁.kept grown₂ (by simp)
      have more : Added u₂ d d' := added₂.later grown₁
      exact ⟨grown₁.trans grown₂, _,
        Pattern.wiredAll_append (Pattern.WiredAll.mono View.join_left _ wired₁)
          (Pattern.WiredAll.mono (added.join_right more) _ wired₂), added.join more⟩

theorem wireReference_new (standard : env.handlers = .standard) :
    (r : Reference CompiledTemplate) → CompiledTemplate.TidyReference r →
    {d d' : Document} → {host : NodeId} → {v : Wiring} →
    env.wireReference [] host r d = .ok v d' → d.Steady →
    Grown [] d d' ∧ ∃ u, Pattern.WiredAll u v.parts ∧ Added u d d'
  | .binding b, _, d, d', host, v, run, steady => by
      rw [wireReference] at run
      obtain ⟨bound, d₁, first, run⟩ := of_bind_ok run
      cases run
      cases bind_same first
      exact ⟨.refl steady _, _, trivial, .nothing ..⟩
  | .template t, tidy, d, d', host, v, run, steady => by
      rw [wireReference_nil] at run
      obtain ⟨⟨part, live⟩, d₁, made, run⟩ := of_bind_ok run
      obtain ⟨placed, d₂, second, run⟩ := of_bind_ok run
      cases run
      cases region_same second
      obtain ⟨new, u, wired, added, -⟩ := assemble_new standard t tidy made steady
      exact ⟨new.grown, u, ⟨wired, trivial⟩, added⟩

end

/-- A tidy template that is built stands beside all that was there. -/
theorem materialize_new (standard : env.handlers = .standard) {t : CompiledTemplate} (tidy : t.Tidy)
    {p : Pattern} {i : Instance} (run : env.materialize t d = .ok (p, i) d') (steady : d.Steady) :
    i.New d d' ∧ p.Laid i.root d d' := by
  rw [env.materialize_eq steady.sound.accounted] at run
  exact assemble_new standard t tidy run steady

end Environment

/-! ## Templates -/

namespace Template

variable {env : Environment} {d d' : Document} {t s : Template} {c : CompiledTemplate}

theorem of_ofCompiled (run : ofCompiled env c d = .ok t d') :
    env.materialize c d = .ok (t.pattern, t.live) d' ∧ t.environment = env := by
  unfold ofCompiled at run
  obtain ⟨made, d₁, first, run⟩ := of_bind_ok run
  cases run
  exact ⟨first, rfl⟩

theorem of_clone (run : t.clone d = .ok s d') :
    t.environment.instantiate t.pattern d = .ok s.live d' ∧ s.environment = t.environment ∧
      s.pattern = t.pattern := by
  unfold clone at run
  obtain ⟨made, d₁, first, run⟩ := of_bind_ok run
  cases run
  exact ⟨first, rfl, rfl⟩

/-- Copying the root alone first makes no difference. -/
theorem cloneSub_eq {u : View} (wired : t.pattern.Wired u)
    (keeps : ∀ {x n}, u x = some n → d.view x = some n) (sound : d.Sound) :
    t.cloneSub d = t.clone d :=
  bind_congr_run (t.environment.instantiateByParts_eq wired keeps sound) _

/-- A tree that is there is copied for the prototype, and wired itself. -/
theorem of_ofNode {r : NodeId} (steady : d.Steady) (run : ofNode env c r d = .ok t d') :
    ∃ T P n d₁ v, d.tree r = .ok T ∧ d.view r = some n ∧ T.label = r ∧
      d.view.Stands n.parent T ∧ Planted d d₁ none T P ∧ d₁.Steady ∧
      env.wireSlots [] c.hostCount 0 (hostsOf T) c.slots d₁ = .ok v d' ∧
      t = { environment := env, pattern := ⟨c, P.label, v.parts⟩, live := v.toInstance r } := by
  rw [ofNode_eq env steady.sound] at run
  obtain ⟨prototype, d₁, copied, run⟩ := of_bind_ok run
  obtain ⟨v, d₂, wires, run⟩ := of_bind_ok run
  cases run
  cases node : d.view r with
  | none =>
      rw [Build.edit_error (copyTree_refused node)] at copied
      cases copied
  | some n =>
      obtain ⟨T, read, label, stands⟩ := exists_tree steady.forest node
      have nodup := steady.forest.nodup_labels T _ stands
      obtain ⟨P, e₁, again, planted⟩ := copyTree_ok steady.sound.accounted stands nodup
      rw [label] at again
      rw [Build.edit_ok again] at copied
      cases copied
      have steady₁ := steady.planted planted (steady.forest.fits_of_stands T _ stands)
      rw [← label, env.wireHosts_stands [] c (planted.trades.stands stands (by simp)) nodup] at wires
      exact ⟨T, P, n, d₁, v, read, rfl, label, stands, planted, steady₁, wires, rfl⟩

/-- A template that takes a tree changes hosts in it, and its pattern is new. A fragment has no
hosts. -/
theorem ofNode_settled {r : NodeId} (standard : env.handlers = .standard) (steady : d.Steady)
    (inner : CompiledTemplate.TidySlots c.slots)
    (tidy : ∀ T, d.tree r = .ok T → T.Tidy c.slots) (run : ofNode env c r d = .ok t d') :
    ∃ hosts n, d.view r = some n ∧ Grown hosts d d' ∧ (∀ x ∈ hosts, d.view.Above r x) ∧
      t.environment = env ∧ t.live.root = r ∧ t.live.Settled d'.view ∧ t.pattern.Laid r d d' ∧
      (n.data = .fragment → hosts = [] ∧ t.live.bindings = .empty ∧ t.live.regions = []) := by
  obtain ⟨T, P, n, d₁, v, read, node, label, stands, planted, steady₁, wires, rfl⟩ :=
    of_ofNode steady run
  have stands₁ := planted.trades.stands stands (by simp)
  obtain ⟨grown, u, wired, added⟩ := env.wireSlots_new standard c.slots inner wires steady₁
    fun x mem => (stands₁.host mem).2
  have tidyT := tidy T read
  obtain ⟨settled, length, wirable, enough⟩ := env.wire_settled standard steady₁ stands₁ tidyT wires grown
  have copied := Grown.of_planted planted steady₁
  have whole : Grown (hostsOf T) d d' := (copied.mono (List.nil_subset _)).trans grown
  have first : Added (View.only P.labels d₁.view) d d' :=
    (Added.of_planted planted).kept grown fun x mem =>
      (stands.host mem).2.imp fun _ facts => facts.1
  have more : Added u d d' := added.later copied
  refine ⟨hostsOf T, n, node, whole, fun x mem => label ▸ (stands.host mem).1, rfl, rfl,
    label ▸ settled, ⟨_, ?_, first.join more, fun {x k} there => ?_⟩, fun fragment => ?_⟩
  · obtain ⟨slots, skeleton, expression⟩ := c
    have stored : Pattern.Stored (View.only P.labels d₁.view) P :=
      ⟨none, planted.stands.only, fun g same => by cases same⟩
    refine ⟨⟨P, stored.mono View.join_left, rfl, tidy_shape.1 (planted.shape ▸ tidy_shape.2 tidyT), ?_⟩,
      wirable, enough, Pattern.WiredAll.mono (first.join_right more) _ wired⟩
    rw [length_hostsOf planted.shape, length]
  · exact whole.not_above_new steady node ((first.join more).fresh there)
  · have top := stands.top
    rw [label, node] at top
    rw [Option.some.inj top] at fragment
    obtain ⟨id, data, children⟩ := T
    obtain rfl : data = .fragment := fragment
    have none_left : c.slots = [] := List.length_eq_zero_iff.1 length.symm
    have hostless : hostsOf (NodeTree.node id .fragment children) = [] := rfl
    rw [none_left, hostless, Environment.wireSlots] at wires
    cases wires
    exact ⟨rfl, rfl, rfl⟩

end Template

end Stencil
