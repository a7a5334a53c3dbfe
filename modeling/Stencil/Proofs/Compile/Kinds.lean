import Stencil.Proofs.Compile.Rereading
import Stencil.Proofs.Compiled.Artifact

/-! # Kinds of compiled templates

A directive binds one of the kinds that the library knows, and the tag of such a kind reads back as
the kind. So does every kind in a template that has been compiled, those of the templates in it
included: what is compiled can be saved.
-/

namespace Stencil

open Markup NodeTree Compile CompiledTemplate

theorem RenderKind.isCanonical_of_isBuiltIn {kind : RenderKind} (known : kind.isBuiltIn = true) :
    kind.IsCanonical := by
  cases kind with
  | custom => cases known
  | escaped | literal | numeral | function | fragment => rfl

theorem CompiledTemplate.canonicalSlot_iff {slot : List (Reference CompiledTemplate)} :
    CanonicalSlot slot ↔ ∀ r ∈ slot, CanonicalReference r := by
  induction slot with
  | nil => exact ⟨fun _ => List.forall_mem_nil _, fun _ => trivial⟩
  | cons r rs ih => rw [CanonicalSlot, ih, List.forall_mem_cons]

theorem CompiledTemplate.canonicalSlots_iff {slots : List (List (Reference CompiledTemplate))} :
    CanonicalSlots slots ↔ ∀ slot ∈ slots, ∀ r ∈ slot, CanonicalReference r := by
  induction slots with
  | nil => exact ⟨fun _ => List.forall_mem_nil _, fun _ => trivial⟩
  | cons slot slots ih => rw [CanonicalSlots, ih, canonicalSlot_iff, List.forall_mem_cons]

namespace Plan

variable {s : Settings} {slot : Slot} {data : NodeData} {ts us : List (NodeTree Slot)}

/-- The kinds of all references in trees are canonical. -/
def Kinded (ts : List (NodeTree Slot)) : Prop :=
  ∀ slot ∈ (hostsAll ts).map label, ∀ r ∈ slot, CanonicalReference r

theorem kinded_nil : Kinded [] := List.forall_mem_nil _

theorem Kinded.append (h : Kinded ts) (k : Kinded us) : Kinded (ts ++ us) := by
  unfold Kinded
  rw [hostsAll_append, List.map_append]
  exact List.forall_mem_append.2 ⟨h, k⟩

theorem Kinded.node (h : Kinded ts) (own : ∀ r ∈ slot, CanonicalReference r) (data : NodeData) :
    Kinded [.node slot data ts] := by
  intro slot' mem
  rw [hostsAll, hosts, hostsAll, List.append_nil, List.map_append] at mem
  rcases List.mem_append.1 mem with first | below
  · split at first
    · cases first
    · rw [List.mem_singleton.1 first]
      exact own
  · exact h slot' below

theorem Kinded.canonical (h : Kinded ts) {d : Plan} (tree : [d.tree] = ts) : d.compiled.Canonical := by
  subst tree
  refine canonicalSlots_iff.2 fun slot mem => h slot ?_
  rwa [hostsAll, hostsAll, List.append_nil]

/-! ## Directives -/

theorem canonical_binding {source : Source} {o : Occurrence} {attr : Option String} {b : Binding}
    (h : binding source o attr = .ok b) : CanonicalReference (.binding b) :=
  RenderKind.isCanonical_of_isBuiltIn (isBuiltIn_binding h)

theorem canonical_ofAttributes {attributes kept : List (String × Value)}
    (distinct : (attributes.map Prod.fst).Nodup) (h : ofAttributes s attributes = .ok (kept, slot)) :
    ∀ r ∈ slot, CanonicalReference r := by
  intro r mem
  cases r with
  | binding b => exact RenderKind.isCanonical_of_isBuiltIn ((ofAttributes_left h).2.2 b mem)
  | template t => cases (emptied_ofAttributes distinct h).bindings _ mem

theorem kinded_literal (value : String) : Kinded (literal value) := by
  unfold literal
  split
  · exact kinded_nil
  · exact kinded_nil.node (List.forall_mem_nil _) _

theorem kinded_ofOccurrences {source : Source} {found : List Occurrence} {trees : List (NodeTree Slot)}
    (h : ofOccurrences s source found = .ok trees) : Kinded trees := by
  induction found generalizing trees with
  | nil =>
      cases h
      exact kinded_nil
  | cons o found ih =>
      rw [ofOccurrences] at h
      obtain ⟨own, planned, h⟩ := bind_eq_ok.1 h
      obtain ⟨others, more, h⟩ := bind_eq_ok.1 h
      cases h
      rw [ofOccurrence] at planned
      obtain ⟨b, bound, planned⟩ := bind_eq_ok.1 planned
      cases planned
      have host : ∀ r ∈ [Reference.binding b], CanonicalReference r :=
        List.forall_mem_singleton.2 (canonical_binding bound)
      exact ((kinded_literal _).append (kinded_nil.node host _)).append (ih more)

theorem kinded_ofText {value : String} {trees : List (NodeTree Slot)}
    (h : ofText s value = .ok trees) : Kinded trees := by
  unfold ofText at h
  obtain ⟨found, -, h⟩ := bind_eq_ok.1 h
  split at h
  · cases h
    exact kinded_nil.node (List.forall_mem_nil _) _
  · obtain ⟨pieces, planned, h⟩ := bind_eq_ok.1 h
    cases h
    exact (kinded_ofOccurrences planned).append (kinded_literal _)

/-! ## Trees -/

theorem kinded_ofContent {children : List (NodeTree NodeId)} {own : Slot} {below : Sketch}
    (h : ofContent s children (ofTrees s children) = .ok (own, below))
    (inner : ∀ {sketch}, ofTrees s children = .ok sketch → Kinded sketch.trees) :
    (∀ r ∈ own, CanonicalReference r) ∧ Kinded below.trees := by
  unfold ofContent at h
  obtain ⟨sole, -, h⟩ := bind_eq_ok.1 h
  cases sole with
  | none =>
      obtain ⟨sketch, planned, h⟩ := bind_eq_ok.1 h
      cases h
      exact ⟨List.forall_mem_nil _, inner planned⟩
  | some found =>
      obtain ⟨b, bound, h⟩ := bind_eq_ok.1 h
      cases h
      exact ⟨List.forall_mem_singleton.2 (canonical_binding bound), kinded_nil⟩

/-- The host of a block refers to a template that can be saved. -/
theorem Kinded.block {below : Sketch} (h : Kinded below.trees)
    (own : ∀ r ∈ slot, CanonicalReference r) (name : String) (kept : List (String × Value))
    (identity : String) : Kinded (Plan.block name kept slot identity below).trees := by
  have inner : CanonicalReference (.template (part name identity below).compiled) := by
    rw [CanonicalReference]
    exact (h.node (List.forall_mem_nil _) _).canonical rfl
  exact kinded_nil.node (List.forall_mem_append.2 ⟨own, List.forall_mem_singleton.2 inner⟩) _

mutual

theorem kinded_ofTree : (t : NodeTree NodeId) → t.Fits → ∀ {sketch}, ofTree s t = .ok sketch →
    Kinded sketch.trees
  | .node id data children, fits, sketch, h => by
      cases data with
      | text value =>
          rw [ofTree] at h
          obtain ⟨trees, planned, h⟩ := bind_eq_ok.1 h
          cases h
          exact kinded_ofText planned
      | element name attributes =>
          simp only [ofTree] at h
          obtain ⟨⟨kept, slot⟩, known, h⟩ := bind_eq_ok.1 h
          have own := canonical_ofAttributes fits.1 known
          cases marked : blockOf? attributes with
          | some identity =>
              rw [marked] at h
              obtain ⟨below, planned, h⟩ := bind_eq_ok.1 h
              cases h
              exact (kinded_ofTrees children fits.2.2 planned).block own name kept identity
          | none =>
              cases sole : soleBlock? children with
              | some found =>
                  rw [marked, sole] at h
                  obtain ⟨below, planned, h⟩ := bind_eq_ok.1 h
                  cases h
                  exact (kinded_ofPromoted children fits.2.2 planned).block own name kept found.2
              | none =>
                  rw [marked, sole] at h
                  obtain ⟨⟨content, below⟩, planned, h⟩ := bind_eq_ok.1 h
                  cases h
                  obtain ⟨bound, inside⟩ := kinded_ofContent planned (kinded_ofTrees children fits.2.2)
                  exact inside.node (List.forall_mem_append.2 ⟨own, bound⟩) _
      | comment value | fragment | doctype value =>
          cases h
          exact kinded_nil.node (List.forall_mem_nil _) _

theorem kinded_ofTrees : (ts : List (NodeTree NodeId)) → FitAll ts → ∀ {sketch},
    ofTrees s ts = .ok sketch → Kinded sketch.trees
  | [], _, sketch, h => by
      cases h
      exact kinded_nil
  | t :: ts, fits, sketch, h => by
      rw [ofTrees] at h
      obtain ⟨own, planned, h⟩ := bind_eq_ok.1 h
      obtain ⟨others, more, h⟩ := bind_eq_ok.1 h
      cases h
      exact (kinded_ofTree t fits.1.2 planned).append (kinded_ofTrees ts fits.2 more)

theorem kinded_ofPromoted : (ts : List (NodeTree NodeId)) → FitAll ts → ∀ {sketch},
    ofPromoted s ts = .ok sketch → Kinded sketch.trees
  | [], _, sketch, h => by
      cases h
      exact kinded_nil
  | .node id data children :: more, fits, sketch, h => by
      rw [ofPromoted] at h
      split at h
      · exact kinded_ofTrees children fits.1.2.2.2 h
      · exact kinded_ofPromoted more fits.2 h

end

theorem canonical_ofRoot {name : String} {attributes : List (String × Value)}
    {children : List (NodeTree NodeId)} {d : Plan} (distinct : (attributes.map Prod.fst).Nodup)
    (fits : FitAll children) (h : ofRoot s name attributes children = .ok d) :
    d.compiled.Canonical := by
  obtain ⟨kept, slot, own, below, known, planned, rfl⟩ := ofRoot_eq_ok h
  obtain ⟨bound, inside⟩ := kinded_ofContent planned (kinded_ofTrees children fits)
  exact (inside.node (List.forall_mem_append.2 ⟨canonical_ofAttributes distinct known, bound⟩)
    (.element name kept)).canonical rfl

end Plan

/-- The kinds of a template that has been compiled are canonical. -/
theorem Compile.canonical_compileSource {config : Config} {source : Source} {d : Document}
    {c : CompiledTemplate} (sound : d.Sound)
    (accepted : ((compileSource config source).run d).1 = .ok c) : c.Canonical := by
  obtain ⟨markup, ⟨id, data, children⟩, d', -, -, element, sound', read, compiled⟩ :=
    root_compileSource sound accepted
  cases data with
  | element name attributes =>
      obtain ⟨n, -, -, stands⟩ := Document.stands_of_treeWithin sound'.forest _ id _ read
      have fits := sound'.forest.fits_of_stands _ _ stands
      obtain ⟨plan, w', planned, written, -⟩ :=
        (compileNode_follows (w := { document := d' }) config source.name sound' read).of_run compiled
      rw [written.compiled]
      exact Plan.canonical_ofRoot fits.1 fits.2.2 planned
  | text | comment | fragment | doctype => cases element

end Stencil
