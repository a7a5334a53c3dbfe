import Stencil.Proofs.Document.Refusal
import Stencil.Proofs.Document.Surgery
import Stencil.Proofs.Render.BindingTable
import Stencil.Proofs.Render.Hosts

/-! # Assembly

A template as it would be built if the hosts of a copy were listed in document order before
any of them is bound: each host is given its slot, and what comes of one slot is put behind
what has come of the other ones.
-/

namespace Stencil

open Markup NodeTree Document Edit

/-- What the references of some hosts amount to in a live tree. -/
structure Wiring where
  bindings : List BoundBinding := []
  regions : List Region := []
  parts : List Pattern := []
  deriving Inhabited

namespace Wiring

def append (v w : Wiring) : Wiring where
  bindings := v.bindings ++ w.bindings
  regions := v.regions ++ w.regions
  parts := v.parts ++ w.parts

instance : Append Wiring := ⟨append⟩

/-- The copy that has been wired. -/
def toInstance (w : Wiring) (root : NodeId) : Instance where
  root := root
  bindings := .ofList w.bindings
  regions := w.regions

end Wiring

namespace Environment

/-! ## Listed hosts -/

/-- The hosts of the tree at a node. -/
def hostsIn (root : NodeId) : Build (List NodeId) :=
  Build.ask fun d => hostsOf <$> d.tree root

mutual

/-- The pattern of a compiled template, and its first copy, as they are assembled. -/
def assemble (env : Environment) : CompiledTemplate → Build (Pattern × Instance)
  | ⟨slots, skeleton, expression⟩ => do
      let prototype ← plantPrototype skeleton.markup
      let root ← Build.edit (Document.copyTree prototype)
      let hosts ← hostsIn root
      let w ← wireSlots env [] slots.length 0 hosts slots
      return ({ compiled := ⟨slots, skeleton, expression⟩, prototype, parts := w.parts },
        w.toInstance root)

/-- Gives hosts their slots, when `wired` of `size` slots have their hosts. -/
def wireSlots (env : Environment) (inherited : List Pattern) (size wired : Nat)
    (hosts : List NodeId) : List (List (Reference CompiledTemplate)) → Build Wiring
  | [] =>
      match hosts with
      | [] => pure {}
      | _ :: _ => throw (.missingSlot (wired + 1) size)
  | slot :: slots =>
      match hosts with
      | [] => throw (.unusedSlots (slots.length + 1) wired)
      | host :: hosts => do
          let v ← wireSlot env inherited host slot
          env.dropMarker host
          let w ← wireSlots env (inherited.drop v.parts.length) size (wired + 1) hosts slots
          return v ++ w

/-- Gives a host its references. -/
def wireSlot (env : Environment) (inherited : List Pattern) (node : NodeId) :
    List (Reference CompiledTemplate) → Build Wiring
  | [] => pure {}
  | r :: rs => do
      let v ← wireReference env inherited node r
      let w ← wireSlot env (inherited.drop v.parts.length) node rs
      return v ++ w

/-- Gives a host a reference. A template to be repeated has the next inherited pattern, or
else a new one. -/
def wireReference (env : Environment) (inherited : List Pattern) (node : NodeId) :
    Reference CompiledTemplate → Build Wiring
  | .binding b => do
      return { bindings := [← env.bind node b] }
  | .template t => do
      let part ← match inherited with
        | part :: _ => pure part
        | [] => Prod.fst <$> assemble env t
      return { regions := [← region node (t.expression.getD "")], parts := [part] }

end

/-- Lists the hosts of a live tree and gives them their slots. -/
def wireHosts (env : Environment) (inherited : List Pattern) (compiled : CompiledTemplate)
    (root : NodeId) : Build Wiring := do
  let hosts ← hostsIn root
  wireSlots env inherited compiled.hostCount 0 hosts compiled.slots

/-- A new copy of a pattern, whose hosts are listed. -/
def duplicate (env : Environment) (p : Pattern) : Build Instance := do
  let root ← Build.edit (Document.copyTree p.prototype)
  return (← wireHosts env p.parts p.compiled root).toInstance root

end Environment

namespace Build

variable {α : Type} {d d' : Document}

theorem edit_ok {e : Edit α} {a : α} (h : e d = .ok a d') : Build.edit e d = .ok a d' := by
  rw [Build.edit, h]

theorem edit_error {e : Edit α} {x : DomError} (h : e d = .error x d') :
    Build.edit e d = .error (.dom x) d' := by
  rw [Build.edit, h]

theorem ask_ok {question : Document → Except DomError α} {a : α} (h : question d = .ok a) :
    Build.ask question d = .ok a d := edit_ok (Edit.ask_ok h)

end Build

/-! ## Prototypes -/

theorem findM?_isElement {d : Document} {p : Option NodeId} {us : List (NodeTree NodeId)}
    (h : d.view.StandAll p us) :
    (us.map label).findM? (fun child => return (← d.data child).isElement : NodeId → Except DomError Bool) =
      .ok ((us.find? fun t => t.data.isElement).map label) := by
  induction us with
  | nil => rfl
  | cons t us ih =>
      have others := ih h.2
      have asked : d.data t.label = .ok t.data := data_eq_ok h.1.top
      rw [List.map_cons, List.findM?, List.find?_cons, asked]
      dsimp only [bind, Except.bind, pure, Except.pure]
      cases t.data.isElement
      · exact others
      · rfl

/-- Markup is planted as the children of a fragment; the first element among them is asked for. -/
theorem planted_markup {d : Document} (accounted : d.Accounted) (markup : String) :
    ∃ f us, (d.plant none (.node () .fragment (parse markup).1)).1 = f ∧
      Planted d (d.plant none (.node () .fragment (parse markup).1)).2 none
        (.node () .fragment (parse markup).1) (.node f .fragment us) ∧
      CompiledTemplate.treeOf? markup = (us.find? fun t => t.data.isElement).map shape ∧
      (d.plant none (.node () .fragment (parse markup).1)).2.firstElement? f =
        .ok ((us.find? fun t => t.data.isElement).map label) := by
  obtain ⟨F, top, planted⟩ :=
    planted_plant (.node () .fragment (parse markup).1) none d accounted
  obtain ⟨f, data, us⟩ := F
  obtain ⟨rfl, forest⟩ : data = .fragment ∧ us.map shape = (parse markup).1 := planted.parts
  have stands := planted.stands
  refine ⟨f, us, top.symm, planted, ?_, ?_⟩
  · have same : ((fun t => t.data.isElement) ∘ shape) = fun t : NodeTree NodeId => t.data.isElement :=
      funext fun t => by rw [Function.comp_apply, data_shape]
    rw [CompiledTemplate.treeOf?, ← forest, List.find?_map, same]
  · simp only [firstElement?, children_eq_ok stands.1]
    exact findM?_isElement stands.2

/-- The first element of markup that has been parsed stands in the document as it was read. -/
theorem root_parseMarkup {d d' : Document} {markup : String} {fragment : NodeId} (h : d.Sound)
    (parsed : Document.parseMarkup markup d = .ok fragment d') :
    d'.Sound ∧
      (CompiledTemplate.treeOf? markup = none ∧ d'.firstElement? fragment = .ok none ∨
        ∃ t, CompiledTemplate.treeOf? markup = some t.shape ∧ t.data.isElement = true ∧
          d'.firstElement? fragment = .ok (some t.label) ∧ d'.tree t.label = .ok t) := by
  have sound : d'.Sound := by
    have kept := Document.keeps_parseMarkup markup d h
    rwa [Edit.after_ok parsed] at kept
  obtain ⟨f, us, top, planted, tree, first⟩ := planted_markup h.accounted markup
  rw [Document.parseMarkup_ok h.accounted parsed] at top planted first
  obtain rfl : fragment = f := top
  refine ⟨sound, ?_⟩
  rw [tree, first]
  cases found : us.find? fun t => t.data.isElement with
  | none => exact .inl ⟨rfl, rfl⟩
  | some t =>
      have element := List.find?_some found
      have listed := List.mem_of_find?_eq_some found
      have sublist : t.labels.Sublist (node fragment .fragment us).labels :=
        (labels_sublist_labelsAll listed).trans (List.sublist_cons_self ..)
      exact .inr ⟨t, rfl, element, rfl,
        Document.tree_of_stands (View.standAll_iff.1 planted.stands.2 t listed)
          (planted.nodup.sublist sublist)⟩

namespace Environment

variable {env : Environment} {d d' : Document}

theorem fits_treeOf? {markup : String} {t : NodeTree Unit}
    (tree : CompiledTemplate.treeOf? markup = some t) : t.Fits :=
  (fitAll_iff.1 (fitAll_parse markup) t (List.mem_of_find?_eq_some tree)).2

/-- A prototype is the first element of its markup, in a fragment of its own. -/
theorem plantPrototype_planted {d : Document} (accounted : d.Accounted) {markup : String}
    (clean : d.strict = false ∨ (parse markup).2 = []) :
    ∃ f us d', Planted d d' none (.node () .fragment (parse markup).1) (.node f .fragment us) ∧
      CompiledTemplate.treeOf? markup = (us.find? fun t => t.data.isElement).map shape ∧
      plantPrototype markup d = match us.find? fun t => t.data.isElement with
        | some P => .ok P.label d'
        | none => .error (.dom (.markup "compiled markup has no root element")) d' := by
  obtain ⟨f, us, top, planted, tree, first⟩ := planted_markup accounted markup
  have parsed := parseMarkup_clean accounted markup clean planted.trades.strict
  refine ⟨f, us, _, planted, tree, ?_⟩
  unfold plantPrototype
  rw [bind_ok (Build.edit_ok parsed), top, bind_ok (Build.ask_ok first)]
  cases us.find? fun t => t.data.isElement <;> rfl

theorem clean_of_plantPrototype (accounted : d.Accounted) {markup : String} {root : NodeId}
    (run : plantPrototype markup d = .ok root d') : d.strict = false ∨ (parse markup).2 = [] := by
  unfold plantPrototype at run
  obtain ⟨fragment, d₁, parsed, -⟩ := of_bind_ok run
  rcases parseMarkup_run accounted markup with ⟨-, clean⟩ | ⟨-, -, e, refused⟩
  · exact clean
  · rw [Build.edit, refused] at parsed
    cases parsed

/-- Markup that has been planted has its first element standing in it. -/
theorem plantPrototype_stands (accounted : d.Accounted) {markup : String} {root : NodeId}
    (run : plantPrototype markup d = .ok root d') :
    ∃ P p, P.label = root ∧ d'.view.Stands p P ∧ P.labels.Nodup ∧
      ∃ new, Trades d d' [] new := by
  obtain ⟨f, us, e, planted, -, again⟩ :=
    plantPrototype_planted accounted (clean_of_plantPrototype accounted run)
  rw [run] at again
  cases first : us.find? fun t => t.data.isElement with
  | none =>
      rw [first] at again
      cases again
  | some P =>
      rw [first] at again
      cases again
      have listed := List.mem_of_find?_eq_some first
      have sublist : P.labels.Sublist (node f .fragment us).labels :=
        (labels_sublist_labelsAll listed).trans (List.sublist_cons_self ..)
      exact ⟨P, some f, rfl, View.standAll_iff.1 planted.stands.2 P listed,
        planted.nodup.sublist sublist, _, planted.trades⟩

theorem hostsIn_stands {d : Document} {p : Option NodeId} {C : NodeTree NodeId}
    (stands : d.view.Stands p C) (nodup : C.labels.Nodup) :
    hostsIn C.label d = .ok (hostsOf C) d := by
  have found : hostsOf <$> d.tree C.label = .ok (hostsOf C) := by
    rw [tree_of_stands stands nodup]
    rfl
  exact Build.ask_ok found

/-! ## References -/

variable {host : NodeId}

theorem bind_same {host : NodeId} {b : Binding} {bound : BoundBinding}
    (run : env.bind host b d = .ok bound d') : d' = d := by
  rw [Environment.bind] at run
  cases found : env.handlers.get? b.kind.tag with
  | none =>
      rw [found] at run
      cases run
  | some handler =>
      rw [found] at run
      cases run
      rfl

theorem region_same {host : NodeId} {expression : String} {placed : Region}
    (run : region host expression d = .ok placed d') : d' = d := by
  rw [region] at run
  cases read : Iteration.parse? expression with
  | none =>
      rw [read] at run
      cases run
  | some i =>
      rw [read] at run
      cases run
      rfl

theorem wireReference_cons (env : Environment) (part : Pattern) (others : List Pattern)
    (host : NodeId) (t : CompiledTemplate) :
    env.wireReference (part :: others) host (.template t) =
      (region host (t.expression.getD "") >>= fun placed =>
        pure { regions := [placed], parts := [part] }) := by
  rw [wireReference]
  rfl

theorem wireReference_nil (env : Environment) (host : NodeId) (t : CompiledTemplate) :
    env.wireReference [] host (.template t) =
      (env.assemble t >>= fun made => region host (t.expression.getD "") >>= fun placed =>
        pure { regions := [placed], parts := [made.1] }) := by
  rw [wireReference]
  exact bind_map_left ..

end Environment

end Stencil
