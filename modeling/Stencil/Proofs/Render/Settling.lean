import Stencil.Proofs.Document.Tending
import Stencil.Render.Rendering

/-! # Settled copies

A live tree is settled when its hosts are elements of it and none of them is below one whose
content may change. Bindings with built-in handlers can be written into a settled tree in any
state: the tree stays settled, and nothing outside of it is touched.
-/

namespace Stencil

open Markup NodeTree Document Edit View

theorem isContainer_of_isElement {data : NodeData} (h : data.isElement = true) :
    data.isContainer = true := by
  cases data with
  | element tag own => rfl
  | text | comment | fragment | doctype => cases h

/-! ## Handlers -/

theorem Writing.edit_ok {α : Type} {e : Edit α} {a : α} {d d' : Document} (h : e d = .ok a d') :
    Writing.edit e d = .ok a d' := by
  rw [Writing.edit, h]

theorem Writing.edit_error {α : Type} {e : Edit α} {x : DomError} {d d' : Document}
    (h : e d = .error x d') : Writing.edit e d = .error (.dom x) d' := by
  rw [Writing.edit, h]

namespace Handler

/-- A handler of a built-in kind. -/
def BuiltIn (h : Handler) : Prop := h = function ∨ h = escaped ∨ h = literal ∨ h = numeral

theorem builtIn_of_standard {tag : String} {h : Handler}
    (found : Registry.standard.get? tag = some h) : h.BuiltIn := by
  obtain ⟨front, back, entries, -⟩ := List.lookup_eq_some_iff.1 found
  have listed : (tag, h) ∈ Registry.standard.entries := by
    rw [entries]
    exact List.mem_append_right _ (List.mem_cons_self ..)
  simp only [Registry.standard, List.mem_cons, Prod.mk.injEq, List.not_mem_nil, or_false] at listed
  rcases listed with ⟨-, rfl⟩ | ⟨-, rfl⟩ | ⟨-, rfl⟩ | ⟨-, rfl⟩ | ⟨-, rfl⟩ <;> simp [BuiltIn]

/-- An attribute receives a value. -/
theorem BuiltIn.attr {h : Handler} (builtIn : h.BuiltIn) (x : NodeId) (name : String)
    (value : Value) :
    ∃ value', h (.attr x name) value = Writing.edit (Document.setAttributeValue x name value') := by
  rcases builtIn with rfl | rfl | rfl | rfl
  · exact ⟨value, rfl⟩
  · exact ⟨value, rfl⟩
  · exact ⟨value, rfl⟩
  · exact ⟨.string (numeralText value), rfl⟩

/-- A node shows a text or markup, or the value is refused. -/
theorem BuiltIn.content {h : Handler} (builtIn : h.BuiltIn) (x : NodeId) (value : Value) :
    (∃ words, h (.content x) value = Writing.edit (showText x words)) ∨
      (∃ markup, h (.content x) value = Writing.edit (Document.setInner x markup)) ∨
      ∃ typeName, h (.content x) value = throw (.notInvokable typeName) := by
  rcases builtIn with rfl | rfl | rfl | rfl
  · cases called : value.invoke? with
    | some result => exact .inl ⟨result.text, by simp [function, called, escaped]⟩
    | none => exact .inr (.inr ⟨value.typeName, by simp [function, called]⟩)
  · exact .inl ⟨value.text, rfl⟩
  · exact .inr (.inl ⟨value.text, rfl⟩)
  · exact .inr (.inl ⟨numeralText value, rfl⟩)

variable {d : Document} {g : NodeId} {n : Node}

/-- What a node that shows a text carries, in place of what it carried. -/
def textShown (words : String) : List (NodeTree Unit) → List (NodeTree Unit)
  | .node _ (.text _) below :: rest => .node () (.text words) below :: rest
  | content => content ++ [.node () (.text words) []]

theorem showText_tended (h : d.Steady) (host : d.view g = some n)
    (container : n.data.isContainer = true) (words : String) :
    ∃ d', showText g words d = .ok () d' ∧ Tended g d d' ∧
      ∀ content, d.Carries g content → d'.Carries g (textShown words content) := by
  have first : d.firstChild? g = .ok n.children.head? := by
    simp [Document.firstChild?, children_eq_ok host, bind, Except.bind, pure, Except.pure]
  unfold showText
  rw [bind_ok (ask_ok first)]
  cases head : n.children.head? with
  | none =>
      obtain ⟨d', run, tended, carries⟩ := appendText_tended h host container words
      refine ⟨d', run, tended, fun content old => ?_⟩
      obtain rfl := old.eq_nil host (List.head?_eq_none_iff.1 head)
      exact carries [] old
  | some c =>
      obtain ⟨k, child, -⟩ := h.forest.child host (List.mem_of_mem_head? head)
      dsimp only
      rw [bind_ok (ask_ok (data_eq_ok child))]
      cases own : k.data with
      | text old =>
          obtain ⟨d', run, tended, carries⟩ := setText_tended h host head child own words
          refine ⟨d', run, tended, fun content old => ?_⟩
          obtain ⟨below, kids, -, -, rfl⟩ := old.head host head child
          rw [own, textShown]
          exact carries _ _ old
      | element | comment | fragment | doctype =>
          obtain ⟨d', run, tended, carries⟩ := appendText_tended h host container words
          refine ⟨d', run, tended, fun content old => ?_⟩
          have whole := carries content old
          obtain ⟨below, kids, -, -, rfl⟩ := old.head host head child
          rw [own] at whole ⊢
          exact whole

end Handler

/-! ## Writing a value -/

namespace BoundBinding

variable {b : BoundBinding} {value : Value} {c : Canvas} {d : Document}

/-- A value is written. -/
theorem apply_ok (run : b.handler b.target value c.document = .ok () d) :
    b.apply value c = .ok () {
      document := d
      history := .called b.binding.kind.tag b.target value :: c.history } := by
  have noted : Rendering.note (.called b.binding.kind.tag b.target value) c =
      .ok () { c with history := .called b.binding.kind.tag b.target value :: c.history } := rfl
  refine (bind_ok noted).trans (bind_ok (a := Except.ok ()) ?_)
  simp only [BoundBinding.call, run]

/-- The handler is called. -/
theorem apply_error {e : HandlerError} (run : b.handler b.target value c.document = .error e d) :
    b.apply value c = (match e with
      | .dom x => throw (.dom x)
      | e => Rendering.note (.failed b.binding.key value e) : Rendering Unit) {
        document := d
        history := .called b.binding.kind.tag b.target value :: c.history } := by
  have noted : Rendering.note (.called b.binding.kind.tag b.target value) c =
      .ok () { c with history := .called b.binding.kind.tag b.target value :: c.history } := rfl
  have called : b.call value { c with history := .called b.binding.kind.tag b.target value :: c.history } =
      .ok (.error e) {
        document := d
        history := .called b.binding.kind.tag b.target value :: c.history } := by
    simp only [BoundBinding.call, run]
  refine (bind_ok noted).trans ((bind_ok called).trans ?_)
  cases e <;> rfl

/-- A handler refuses a value, which is reported. -/
theorem apply_refused {words : String}
    (run : b.handler b.target value c.document = .error (.notInvokable words) d) :
    b.apply value c = .ok () {
      document := d
      history := .failed b.binding.key value (.notInvokable words) ::
        .called b.binding.kind.tag b.target value :: c.history } := apply_error run

end BoundBinding

/-! ## Settled copies -/

namespace Instance

/-- A node into which a copy writes. -/
def Hosts (i : Instance) (x : NodeId) : Prop :=
  (∃ b ∈ i.bindings, b.target.node = x) ∨ ∃ r ∈ i.regions, r.container = x

/-- A node whose content a copy changes. -/
def Fills (i : Instance) (x : NodeId) : Prop :=
  (∃ b ∈ i.bindings, b.target = .content x) ∨ ∃ r ∈ i.regions, r.container = x

theorem Fills.hosts {i : Instance} {x : NodeId} (h : i.Fills x) : i.Hosts x := by
  rcases h with ⟨b, mem, target⟩ | region
  · exact .inl ⟨b, mem, by rw [target]; rfl⟩
  · exact .inr region

/-- The hosts of a copy are elements of its tree, and none is below another whose content it
changes. Its handlers are built in. -/
structure Settled (i : Instance) (v : View) : Prop where
  root : ∃ n, v i.root = some n
  element : ∀ x, i.Hosts x → ∃ n, v x = some n ∧ n.data.isElement = true
  inside : ∀ x, i.Hosts x → Above v i.root x
  leaf : ∀ g x, i.Fills g → i.Hosts x → Above v g x → x = g
  builtIn : ∀ b ∈ i.bindings, b.handler.BuiltIn

/-- A copy has been written into: it is settled still, and nothing outside has changed. -/
structure Written (i : Instance) (d d' : Document) : Prop where
  steady : d'.Steady
  settled : i.Settled d'.view
  confined : Confined [i.root] d.view d'.view
  root : ∃ n m, d.view i.root = some n ∧ d'.view i.root = some m ∧ m.parent = n.parent

variable {i : Instance} {v w : View} {d d' d'' : Document} {g : NodeId} {tops : List NodeId}

theorem Written.refl (steady : d.Steady) (settled : i.Settled d.view) : i.Written d d := by
  obtain ⟨n, node⟩ := settled.root
  exact ⟨steady, settled, .refl .., n, n, node, node, rfl⟩

theorem Written.trans (h : i.Written d d') (k : i.Written d' d'') : i.Written d d'' := by
  obtain ⟨n, m, node, node', parent⟩ := h.root
  obtain ⟨m', l, same, node'', parent'⟩ := k.root
  rw [node'] at same
  cases same
  exact ⟨k.steady, k.settled, h.confined.trans k.confined, n, l, node, node'', parent'.trans parent⟩

namespace Settled

/-- Being settled depends on the hosts and what is above them. -/
theorem congr (h : i.Settled v) (root : ∃ n, w i.root = some n)
    (element : ∀ x n, i.Hosts x → v x = some n →
      ∃ m, w x = some m ∧ m.data.isElement = n.data.isElement)
    (above : ∀ {a x}, i.Hosts x → (Above w a x ↔ Above v a x)) : i.Settled w where
  root := root
  element x host := by
    obtain ⟨n, node, isElement⟩ := h.element x host
    obtain ⟨m, node', same⟩ := element x n host node
    exact ⟨m, node', same.trans isElement⟩
  inside x host := (above host).2 (h.inside x host)
  leaf g x fills host higher := h.leaf g x fills host ((above host).1 higher)
  builtIn := h.builtIn

/-- A change elsewhere leaves a copy settled. -/
theorem of_confined (h : i.Settled v) (confined : Confined tops v w)
    (root : ¬Inside tops v i.root) (out : ∀ x, i.Hosts x → ¬Inside tops v x) : i.Settled w := by
  obtain ⟨n, node⟩ := h.root
  refine h.congr ⟨n, (confined.node node root).1⟩ (fun x m host there =>
    ⟨m, (confined.node there (out x host)).1, rfl⟩) fun {a x} host => ?_
  obtain ⟨m, there, -⟩ := h.element x host
  exact ⟨confined.symm.above (confined.node there (out x host)).2, confined.above (out x host)⟩

/-- The content of one of its hosts has changed. -/
theorem tended (h : i.Settled d.view) (steady : d.Steady) (fills : i.Fills g)
    (tended : Tended g d d') : i.Written d d' := by
  obtain ⟨n, m, node, node', data, parent⟩ := tended.top
  have atop : ∀ a, d'.view.Above a g ↔ d.view.Above a g := fun a =>
    tended.confined.above_top steady.forest node node' parent
  have inside := h.inside g fills.hosts
  have off : ∀ {x}, x ≠ g → ¬Inside [g] d.view x ∨ ¬i.Hosts x := by
    intro x other
    by_cases host : i.Hosts x
    · exact .inl fun below => other (h.leaf g x fills host (inside_singleton.1 below))
    · exact .inr host
  have root : ∃ n m, d.view i.root = some n ∧ d'.view i.root = some m ∧ m.parent = n.parent := by
    by_cases same : i.root = g
    · exact ⟨n, m, same ▸ node, same ▸ node', parent⟩
    · obtain ⟨k, top⟩ := h.root
      have out : ¬Inside [g] d.view i.root := fun below =>
        same (steady.forest.above_antisymm node inside (inside_singleton.1 below))
      exact ⟨k, k, top, (tended.confined.node top out).1, rfl⟩
  refine ⟨tended.steady, h.congr (root.elim fun _ rest => rest.imp fun _ facts => facts.2.1) ?_ ?_, ?_,
    root⟩
  · intro x k host there
    by_cases same : x = g
    · rw [same, node] at there
      cases there
      exact ⟨m, same ▸ node', by rw [data]⟩
    · exact ⟨k, (tended.confined.node there ((off same).resolve_right fun other => other host)).1, rfl⟩
  · intro a x host
    by_cases same : x = g
    · rw [same]
      exact atop a
    · have out := (off same).resolve_right fun other => other host
      obtain ⟨k, there, -⟩ := h.element x host
      exact ⟨tended.confined.symm.above (tended.confined.node there out).2, tended.confined.above out⟩
  · exact tended.confined.lift (List.forall_mem_singleton.2 (inside_singleton.2 inside))
      (List.forall_mem_singleton.2 (inside_singleton.2 ((atop i.root).2 inside)))

/-- Attributes of its hosts have changed. -/
theorem dressed {hosts : List NodeId} (h : i.Settled d.view) (steady : d.Steady)
    (own : ∀ x ∈ hosts, i.Hosts x) (dressed : Dressed hosts d d') : i.Written d d' := by
  obtain ⟨n, node⟩ := h.root
  obtain ⟨m, node', -, parent, -⟩ := dressed.links node
  have above : ∀ {a x}, i.Hosts x → (d'.view.Above a x ↔ d.view.Above a x) := by
    intro a x host
    obtain ⟨k, there, -⟩ := h.element x host
    exact dressed.above_iff steady there
  refine ⟨dressed.steady, h.congr ⟨m, node'⟩ (fun x k _ there => ?_) above, dressed.confined.lift ?_ ?_,
    n, m, node, node', parent⟩
  · obtain ⟨l, there', element, -⟩ := dressed.links there
    exact ⟨l, there', element⟩
  · exact fun x mem => inside_singleton.2 (h.inside x (own x mem))
  · exact fun x mem => inside_singleton.2 ((above (own x mem)).2 (h.inside x (own x mem)))

end Settled

end Instance

/-! ## Rendering into a settled copy -/

/-- A body writes into a copy in any state in which the copy is settled and what is outside of
it is as given. -/
def Rendering.Writes (i : Instance) (v : View) (body : Rendering Unit) : Prop :=
  ∀ c, c.document.Steady → i.Settled c.document.view → outside [i.root] c.document.view = v →
    ∃ c', body c = .ok () c' ∧ i.Written c.document c'.document

namespace Rendering.Writes

variable {i : Instance} {v : View} {body next : Rendering Unit}

theorem nothing : Writes i v (pure ()) := fun c steady settled _ =>
  ⟨c, rfl, .refl steady settled⟩

theorem note (e : Event) : Writes i v (Rendering.note e) := fun _ steady settled _ =>
  ⟨_, rfl, .refl steady settled⟩

theorem seq (h : Writes i v body) (k : Writes i v next) : Writes i v (body >>= fun _ => next) := by
  intro c steady settled same
  obtain ⟨c₁, run₁, first⟩ := h c steady settled same
  obtain ⟨c₂, run₂, second⟩ := k c₁ first.steady first.settled (Eq.trans first.confined same)
  exact ⟨c₂, by rw [bind_ok run₁, run₂], first.trans second⟩

theorem forM {γ : Type} {step : γ → Rendering Unit} {xs : List γ}
    (h : ∀ x ∈ xs, Writes i v (step x)) : Writes i v (xs.forM step) := by
  induction xs with
  | nil => exact nothing
  | cons x xs ih =>
      show Writes i v (step x >>= fun _ => xs.forM step)
      exact (h x (by simp)).seq (ih fun y mem => h y (by simp [mem]))

end Rendering.Writes

namespace Instance

variable {i : Instance} {d : Document}

/-- A built-in handler writes into a settled copy, or refuses the value. -/
theorem Settled.handle (h : i.Settled d.view) (steady : d.Steady) {b : BoundBinding}
    (mem : b ∈ i.bindings) (value : Value) :
    ∃ d', i.Written d d' ∧ (b.handler b.target value d = .ok () d' ∨
      ∃ words, b.handler b.target value d = .error (.notInvokable words) d') := by
  have hosts : i.Hosts b.target.node := .inl ⟨b, mem, rfl⟩
  obtain ⟨n, node, element⟩ := h.element _ hosts
  have builtIn := h.builtIn b mem
  cases target : b.target with
  | attr x name =>
      rw [target] at hosts node
      dsimp only [Target.node] at hosts node
      obtain ⟨value', same⟩ := builtIn.attr x name value
      obtain ⟨d', run, dressed⟩ := setAttributeValue_dressed steady node element name value'
      exact ⟨d', h.dressed steady (by simpa using hosts) dressed, .inl (by rw [same, Writing.edit_ok run])⟩
  | content x =>
      rw [target] at node
      dsimp only [Target.node] at node
      have fills : i.Fills x := .inl ⟨b, mem, target⟩
      have container : n.data.isContainer = true := isContainer_of_isElement element
      rcases builtIn.content x value with ⟨words, same⟩ | ⟨markup, same⟩ | ⟨typeName, same⟩
      · obtain ⟨d', run, tended, -⟩ := Handler.showText_tended steady node container words
        exact ⟨d', h.tended steady fills tended, .inl (by rw [same, Writing.edit_ok run])⟩
      · obtain ⟨d', run, tended, -⟩ := setInner_tended steady node container markup
        exact ⟨d', h.tended steady fills tended, .inl (by rw [same, Writing.edit_ok run])⟩
      · exact ⟨d, .refl steady h, .inr ⟨typeName, by rw [same]; rfl⟩⟩

theorem Settled.writes_apply {v : View} {b : BoundBinding} (mem : b ∈ i.bindings) (value : Value) :
    Rendering.Writes i v (b.apply value) := by
  intro c steady settled same
  obtain ⟨d', written, run | ⟨words, run⟩⟩ := settled.handle steady mem value
  · exact ⟨_, BoundBinding.apply_ok run, written⟩
  · exact ⟨_, BoundBinding.apply_refused run, written⟩

theorem writes_bindings (i : Instance) (v : View) (scope : Scope) :
    Rendering.Writes i v (Rendering.means.writeBindings i scope) := by
  refine .forM fun entry mem => ?_
  show Rendering.Writes i v (Rendering.means.writeKey scope entry.1 entry.2)
  rw [Means.writeKey]
  cases scope.resolve? entry.1 with
  | none => exact .nothing
  | some value =>
      refine .forM fun b listed => Settled.writes_apply ?_ value
      exact List.mem_flatMap.2 ⟨entry, mem, listed⟩

end Instance

end Stencil
