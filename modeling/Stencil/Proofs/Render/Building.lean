import Stencil.Proofs.Render.Wiring

/-! # Building

A compiled template of the right shape can always be built: its prototype is planted beside
what was there, each copy gets one slot a host, and the copy that has been wired has lost
its markers and nothing else.
-/

namespace Stencil

open Markup NodeTree Document Edit

/-! ## Prototypes and copies -/

namespace Rendering

variable {α : Type} {a : α} {c : Canvas} {d' : Document}

theorem build_ok {b : Build α} (h : b c.document = .ok a d') :
    Rendering.build b c = .ok a { document := d', history := c.history } := by
  rw [Rendering.build, h]

theorem edit_ok {e : Edit α} (h : e c.document = .ok a d') :
    Rendering.edit e c = .ok a { document := d', history := c.history } :=
  build_ok (Build.edit_ok h)

/-- A copy is made, written into, emptied into a node and given up. -/
theorem addCopy_ok {env : Environment} {part : Pattern} {g : NodeId} {fill : Instance → Rendering Unit}
    {i : Instance} {d₁ d₃ : Document} {c₂ : Canvas} (made : env.instantiate part c.document = .ok i d₁)
    (filled : fill i { document := d₁, history := c.history } = .ok () c₂)
    (moved : moveChildren i.root g c₂.document = .ok () d₃)
    (released : release i.root d₃ = .ok () d') :
    means.addCopy env g part fill c = .ok () { document := d', history := c₂.history } :=
  (bind_ok (build_ok made)).trans <| (bind_ok filled).trans <| (bind_ok (edit_ok moved)).trans <|
    edit_ok released

end Rendering

/-- A part of a view. -/
def View.only (ids : List NodeId) (v : View) : View := fun x => if x ∈ ids then v x else none

theorem View.only_eq_some {ids : List NodeId} {v : View} {x : NodeId} {n : Node}
    (h : View.only ids v x = some n) : x ∈ ids ∧ v x = some n := by
  unfold View.only at h
  split at h
  · exact ⟨‹_›, h⟩
  · cases h

theorem View.Stands.only {v : View} {p : Option NodeId} {t : NodeTree NodeId} (h : v.Stands p t) :
    (View.only t.labels v).Stands p t :=
  h.congr fun x mem => by simp [View.only, mem]

namespace Environment

variable {env : Environment}

theorem plantPrototype_ok {d : Document} {markup : String} {t : NodeTree Unit} (ready : d.Ready)
    (tree : CompiledTemplate.treeOf? markup = some t) :
    ∃ P d', plantPrototype markup d = .ok P.label d' ∧ P.shape = t ∧
      (∃ p, d'.view.Stands p P) ∧ P.labels.Nodup ∧ (∀ x ∈ P.labels, d.view x = none) ∧
      d'.Ready ∧ ∀ {x n}, d.view x = some n → d'.view x = some n := by
  obtain ⟨f, us, d', planted, same, run⟩ :=
    plantPrototype_planted ready.accounted (.inl ready.lenient)
  rw [tree] at same
  obtain ⟨P, found, rfl⟩ := Option.map_eq_some_iff.1 same.symm
  rw [found] at run
  have listed := List.mem_of_find?_eq_some found
  have sublist : P.labels.Sublist (node f .fragment us).labels :=
    (labels_sublist_labelsAll listed).trans (List.sublist_cons_self ..)
  exact ⟨P, d', run, rfl, ⟨some f, View.standAll_iff.1 planted.stands.2 P listed⟩,
    planted.nodup.sublist sublist, fun x mem => planted.trades.fresh x (sublist.subset mem) (by simp),
    planted.ready ready, fun there => planted.trades.kept there (by simp)⟩

theorem hostsIn_ok {d : Document} {p : Option NodeId} {C : NodeTree NodeId}
    (stands : d.view.Stands p C) (nodup : C.labels.Nodup)
    (blockless : blocklessAll C.children = true) :
    hostsIn C.label d = .ok ((hostTrees C).map label) d := by
  rw [hostsIn_stands stands nodup, hostsOf_eq blockless]

/-- A copy of a prototype is bare, and its hosts fit the slots as those of the prototype. -/
theorem copy_ok {d : Document} {w : View} {p : Option NodeId} {P : NodeTree NodeId}
    {slots : List (List (Reference CompiledTemplate))} (ready : d.Ready)
    (frame : ∀ {x n}, w x = some n → d.view x = some n) (stands : d.view.Stands p P)
    (nodup : P.labels.Nodup) (fit : P.shape.Fits)
    (blockless : blocklessAll P.shape.children = true)
    (fits : List.Forall₂ SlotFits (hostTrees P.shape) slots) :
    ∃ C d', copyTree P.label d = .ok C.label d' ∧
      hostsIn C.label d' = .ok ((hostTrees C).map label) d' ∧ C.shape = P.shape ∧
      Worn d' w .bare C [] ∧ List.Forall₂ SlotFits (hostTrees C) slots := by
  obtain ⟨C, d', run, copy⟩ := copyTree_ok ready.accounted stands nodup
  have same := copy.shape
  refine ⟨C, d', run, hostsIn_ok copy.stands copy.nodup ?_, same,
    Worn.of_planted ready ((fits_shape P).1 fit) frame copy, hosts_fit (same ▸ fits)⟩
  rw [← same] at blockless
  cases C
  rwa [shape_node, NodeTree.children, blocklessAll_shape] at blockless

/-! ## Steps -/

theorem bind_builtIn {d : Document} (standard : env.handlers = .standard) {b : Binding}
    (builtIn : b.kind.isBuiltIn = true) (host : NodeId) :
    env.bind host b d =
      .ok { binding := b, target := b.target host, handler := b.kind.handler } d := by
  simp only [Environment.bind, standard, Registry.get?_standard builtIn]
  rfl

theorem region_ok {d : Document} {expression : String} {i : Iteration}
    (read : Iteration.parse? expression = some i) (host : NodeId) :
    region host expression d = .ok { container := host, iteration := i } d := by
  simp only [region, read]
  rfl

theorem dropMarker_ok (env : Environment) {d : Document} {w : View} {D : Dress} {C s : NodeTree NodeId}
    (h : Worn d w D C []) (inside : ∃ q, Within none C q s) (element : s.data.isElement = true) :
    ∃ d' E, env.dropMarker s.label d = .ok () d' ∧ Worn d' w E C [] ∧
      (∀ T, E.received T = D.received T) ∧
      ∀ x, E.unmarked x = (D.unmarked x || !env.keepMarkers && decide (x = s.label)) := by
  obtain ⟨q, within⟩ := inside
  unfold dropMarker
  cases env.keepMarkers with
  | true => exact ⟨d, D, rfl, h, fun _ => rfl, by simp⟩
  | false =>
      obtain ⟨d', run, worn⟩ := h.removeMarker within element
      refine ⟨d', _, Build.edit_ok run, worn, D.received_unmark s.label, fun x => ?_⟩
      by_cases same : x = s.label <;> simp [Dress.unmark, same]

/-! ## Wiring and building -/

mutual

theorem assemble_ok (standard : env.handlers = .standard) :
    (t : CompiledTemplate) → t.Shaped → (d : Document) → d.Ready →
    ∃ p i d' u D C, env.assemble t d = .ok (p, i) d' ∧
      Materialized env.keepMarkers t d d' p i u D C
  | ⟨slots, skeleton, expression⟩, shaped, d, ready => by
      obtain ⟨⟨t, tree, blockless, fits⟩, inner⟩ := shaped
      obtain ⟨P, d₁, planted, rfl, ⟨q, stands⟩, nodup, fresh, ready₁, keeps⟩ :=
        plantPrototype_ok ready tree
      have there : ∀ {x n}, d.view.join (View.only P.labels d₁.view) x = some n →
          d₁.view x = some n := by
        intro x n joined
        cases old : d.view x with
        | some m =>
            rw [View.join_left old] at joined
            cases joined
            exact keeps old
        | none =>
            rw [View.join_right old] at joined
            exact (View.only_eq_some joined).2
      obtain ⟨C, d₂, copied, hosts, same, worn, fitting⟩ :=
        copy_ok ready₁ there stands nodup (fits_treeOf? tree) blockless fits
      obtain ⟨v, d', u, E, wired, wires, worn', received, unmarked⟩ :=
        wireSlots_ok standard slots inner fitting (within_hostTrees none C) d₂ _
          .bare [] slots.length 0 worn
      obtain ⟨parts, sound⟩ := wires.parts rfl
      refine ⟨{ compiled := ⟨slots, skeleton, expression⟩, prototype := P.label, parts := v.parts },
        v.toInstance C.label, d', (View.only P.labels d₁.view).join u, E, C, ?_, ?_⟩
      · rw [assemble, bind_ok planted, bind_ok (Build.edit_ok copied), bind_ok hosts,
          bind_ok wired]
        rfl
      · refine ⟨fun {x n} joined => ?_, rfl, ⟨⟨q, P, ?_, nodup, rfl, tree⟩,
          ⟨⟨P.shape, tree, blockless, fits⟩, inner⟩, ?_, ?_⟩, ?_, ?_⟩
        · cases own : View.only P.labels d₁.view x with
          | some m => exact fresh x (View.only_eq_some own).1
          | none =>
              rw [View.join_right own] at joined
              exact (View.join_eq_none.1 (wires.apart joined).1).1
        · exact stands.only.mono fun _ _ => View.join_left
        · exact parts.trans (CompiledTemplate.plots_sitesOf skeleton expression slots inner _
            (by simpa using fitting.length_eq))
        · refine Pattern.SoundAll.mono (fun {x n} there => ?_) _ sound
          rw [View.join_right (View.join_eq_none.1 (wires.apart there).1).2, there]
        · rwa [← View.join_assoc]
        · exact ⟨rfl, same ▸ tree, congrArg _ wires.bindings, wires.regions, fun T => by
            rw [received T, Dress.received_bare], unmarked⟩

theorem wireSlots_ok (standard : env.handlers = .standard) :
    (slots : List (List (Reference CompiledTemplate))) → CompiledTemplate.ShapedSlots slots →
    {hosts : List (NodeTree NodeId)} → {C : NodeTree NodeId} →
    List.Forall₂ SlotFits hosts slots →
    (∀ s ∈ hosts, (∃ q, Within none C q s) ∧ s.data.isElement = true) →
    (d : Document) → (w : View) → (D : Dress) → (inherited : List Pattern) →
    (size wired : Nat) → Worn d w D C [] →
    ∃ v d' u E, env.wireSlots inherited size wired (hosts.map label) slots d = .ok v d' ∧
      Wires w C u inherited (sitesOf (hosts.map label) slots) v ∧
      Worn d' (w.join u) E C [] ∧ (∀ T, E.received T = D.received T) ∧
      ∀ x, E.unmarked x =
        (D.unmarked x || !env.keepMarkers && decide (x ∈ hosts.map label))
  | [], _, [], C, _, _, d, w, D, inherited, size, wired, worn => by
      refine ⟨{}, d, fun _ => none, D, ?_, .nothing, ?_, fun _ => rfl, by simp⟩
      · rw [List.map_nil, wireSlots]
        rfl
      · rwa [View.join_none]
  | slot :: slots, shaped, s :: hosts, C, fits, inside, d, w, D, inherited, size, wired, worn => by
      obtain ⟨fit, others⟩ := List.forall₂_cons.1 fits
      obtain ⟨within, element⟩ := inside s (by simp)
      obtain ⟨v, d₁, u, first, wires, worn₁⟩ :=
        wireSlot_ok standard slot shaped.1 fit.builtIn s.label d w D inherited worn
      obtain ⟨d₂, D₂, dropped, worn₂, received₂, unmarked₂⟩ :=
        dropMarker_ok env worn₁ within element
      obtain ⟨v', d', u', E, rest, wires', worn', received, unmarked⟩ :=
        wireSlots_ok standard slots shaped.2 others (fun t mem => inside t (by simp [mem])) d₂ _ D₂
          (inherited.drop v.parts.length) size (wired + 1) worn₂
      refine ⟨v ++ v', d', u.join u', E, ?_, ?_, ?_, fun T => ?_, fun x => ?_⟩
      · rw [List.map_cons, wireSlots, bind_ok first, bind_ok dropped, bind_ok rest]
        rfl
      · rw [List.map_cons, sitesOf_cons]
        exact wires.append wires'
      · rwa [← View.join_assoc]
      · rw [received T, received₂ T]
      · rw [unmarked x, unmarked₂ x, List.map_cons]
        cases D.unmarked x <;> cases env.keepMarkers <;> simp

theorem wireSlot_ok (standard : env.handlers = .standard) :
    (slot : List (Reference CompiledTemplate)) → CompiledTemplate.ShapedSlot slot →
    (∀ b, .binding b ∈ slot → b.kind.isBuiltIn = true) → {C : NodeTree NodeId} →
    (host : NodeId) → (d : Document) → (w : View) → (D : Dress) → (inherited : List Pattern) →
    Worn d w D C [] →
    ∃ v d' u, env.wireSlot inherited host slot d = .ok v d' ∧
      Wires w C u inherited (sitesAt host slot) v ∧ Worn d' (w.join u) D C []
  | [], _, _, C, host, d, w, D, inherited, worn => by
      refine ⟨{}, d, fun _ => none, ?_, .nothing, ?_⟩
      · rw [wireSlot]
        rfl
      · rwa [View.join_none]
  | r :: rs, shaped, builtIn, C, host, d, w, D, inherited, worn => by
      obtain ⟨v, d₁, u, first, wires, worn₁⟩ :=
        wireReference_ok standard r shaped.1 (fun b same => builtIn b (by simp [same])) host d w D
          inherited worn
      obtain ⟨v', d', u', rest, wires', worn'⟩ :=
        wireSlot_ok standard rs shaped.2 (fun b mem => builtIn b (by simp [mem])) host d₁ _ D
          (inherited.drop v.parts.length) worn₁
      refine ⟨v ++ v', d', u.join u', ?_, wires.append wires', ?_⟩
      · rw [wireSlot, bind_ok first, bind_ok rest]
        rfl
      · rwa [← View.join_assoc]

theorem wireReference_ok (standard : env.handlers = .standard) :
    (r : Reference CompiledTemplate) → CompiledTemplate.ShapedReference r →
    (∀ b, r = .binding b → b.kind.isBuiltIn = true) → {C : NodeTree NodeId} →
    (host : NodeId) → (d : Document) → (w : View) → (D : Dress) → (inherited : List Pattern) →
    Worn d w D C [] →
    ∃ v d' u, env.wireReference inherited host r d = .ok v d' ∧
      Wires w C u inherited [(host, r)] v ∧ Worn d' (w.join u) D C []
  | .binding b, _, builtIn, C, host, d, w, D, inherited, worn => by
      refine ⟨{ bindings := [{ binding := b, target := b.target host, handler := b.kind.handler }] },
        d, fun _ => none, ?_, ⟨by simp, ?_, ?_, ?_⟩, ?_⟩
      · rw [wireReference, bind_ok (bind_builtIn standard (builtIn b rfl) host)]
        rfl
      · rfl
      · rfl
      · exact fun _ => ⟨rfl, trivial⟩
      · rwa [View.join_none]
  | .template t, shaped, _, C, host, d, w, D, inherited, worn => by
      obtain ⟨i, read⟩ := CompiledTemplate.ShapedReference.iteration shaped
      have plot : Site.plot? (host, .template t) =
          some ({ container := host, iteration := i }, t) := by
        simp [Site.plot?, read]
      cases inherited with
      | cons part others =>
          refine ⟨{ regions := [{ container := host, iteration := i }], parts := [part] }, d,
            fun _ => none, ?_, ⟨by simp, ?_, ?_, by simp⟩, ?_⟩
          · rw [wireReference]
            dsimp only
            rw [bind_ok (pure_run _ _), bind_ok (region_ok read host)]
            rfl
          · rfl
          · rw [List.filterMap_cons_some plot]
            rfl
          · rwa [View.join_none]
      | nil =>
          obtain ⟨p, first, d', u, E, B, built, made⟩ :=
            assemble_ok standard t shaped.2 d worn.ready
          have kept : Worn d' w D C [] := worn.keep made.worn.ready fun there =>
            made.worn.frame (View.join_left there)
          refine ⟨{ regions := [{ container := host, iteration := i }], parts := [p] }, d', u, ?_,
            ⟨fun {x n} there => ⟨?_, fun own => worn.live own (made.fresh there)⟩, ?_, ?_, ?_⟩,
            kept.enlarge (fun {x n} there => ?_) (fun x own => ?_) fun x alien => ?_⟩
          · rw [wireReference]
            dsimp only
            rw [bind_ok (show (Prod.fst <$> env.assemble t) d = .ok p d' by
                simp [Functor.map, EStateM.map, built]),
              bind_ok (region_ok read host)]
            rfl
          · cases frame : w x with
            | none => rfl
            | some m =>
                have absent := made.fresh there
                rw [worn.frame frame] at absent
                cases absent
          · rfl
          · rw [List.filterMap_cons_some plot]
            rfl
          · intro _
            rw [List.filterMap_cons_some plot]
            exact ⟨congrArg (fun t => [t]) made.compiled, made.sound, trivial⟩
          · exact made.worn.frame ((View.join_right (made.fresh there)).trans there)
          · cases there : u x with
            | none => rfl
            | some n => exact (worn.live own (made.fresh there)).elim
          · cases there : u x with
            | none => rfl
            | some n => exact (worn.live_foreign alien (made.fresh there)).elim

end

/-- A sound pattern can be copied wherever its prototypes stand. -/
theorem instantiate_ok (standard : env.handlers = .standard) {p : Pattern} {d : Document}
    (sound : p.Sound d.view) (ready : d.Ready) :
    ∃ i d' E C, env.instantiate p d = .ok i d' ∧ Worn d' d.view E C [] ∧
      i.Mounted env.keepMarkers p.compiled E C := by
  obtain ⟨⟨slots, skeleton, expression⟩, prototype, inherited⟩ := p
  obtain ⟨⟨q, P, stands, nodup, rfl, tree⟩, ⟨⟨t, tree', blockless, fits⟩, inner⟩, -, -⟩ := sound
  rw [show CompiledTemplate.treeOf? skeleton.markup = some P.shape from tree] at tree'
  cases tree'
  obtain ⟨C, d₁, copied, hosts, same, worn, fitting⟩ :=
    copy_ok ready (fun there => there) stands nodup (fits_treeOf? tree) blockless fits
  obtain ⟨v, d', u, E, wired, wires, worn', received, unmarked⟩ :=
    wireSlots_ok standard slots inner fitting (within_hostTrees none C) d₁ _
      .bare inherited slots.length 0 worn
  have run : env.wireHosts inherited ⟨slots, skeleton, expression⟩ C.label d₁ = .ok v d' := by
    rw [wireHosts, bind_ok hosts]
    exact wired
  refine ⟨v.toInstance C.label, d', E, C, ?_, worn'.reframe View.join_left, rfl, same ▸ tree,
    congrArg _ wires.bindings, wires.regions, fun T => by rw [received T, Dress.received_bare], unmarked⟩
  rw [env.instantiate_stands ready.accounted stands nodup rfl, duplicate, bind_ok (Build.edit_ok copied), bind_ok run]
  rfl

end Environment

end Stencil
