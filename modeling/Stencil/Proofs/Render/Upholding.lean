import Stencil.Proofs.Render.Bare

/-! # Handlers of the host program

A tame handler writes into its target alone, and changes nothing when it fails. Whatever a tame
or built-in handler does in a settled live tree, of a strict document or a lenient one: the tree
stays settled, and all that was there outside of the tree is as it was.
-/

namespace Stencil

open Markup Document Edit View

/-! ## Handlers -/

/-- A target has been written, and nothing else that was there has changed. -/
def Target.Wrote : Target → Document → Document → Prop
  | .content node, d, d' => Touched node d d'
  | .attr node name, d, d' => Tinted node name d d'

namespace Handler

variable {h : Handler} {d d' : Document} {n : Node}

/-- A handler that writes into its target alone, and changes nothing when it fails, on an element
of a sound document. -/
def Tame (h : Handler) : Prop :=
  ∀ (target : Target) (value : Value) (d d' : Document) (n : Node), d.Sound →
    d.view target.node = some n → n.data.isElement = true →
    (h target value d = .ok () d' → target.Wrote d d') ∧
      ∀ e, h target value d = .error e d' → d' = d

/-- A built-in handler, or a tame one. -/
def Admissible (h : Handler) : Prop := h.BuiltIn ∨ h.Tame

/-- A handler that takes no value is tame. -/
theorem tame_throw (words : String) : Tame fun _ _ => throw (.refused words) := by
  intro target value d d' n _ _ _
  constructor
  · intro run
    cases run
  · intro e run
    cases run
    rfl

theorem showText_blind (node : NodeId) (words : String) : Blind (showText node words) := by
  unfold showText
  refine (Blind.ask fun _ => rfl).bind fun first => ?_
  have added : Blind (do Document.append node (← createText words)) :=
    (Blind.createText words).bind fun text => Blind.append node text
  cases first with
  | none => exact added
  | some child =>
      refine (Blind.ask fun _ => rfl).bind fun own => ?_
      cases own with
      | text => exact Blind.setText child words
      | element | comment | fragment | doctype => exact added

theorem showText_touched (sound : d.Sound) {g : NodeId} (host : d.view g = some n)
    (container : n.data.isContainer = true) (words : String) :
    ∃ d', showText g words d = .ok () d' ∧ Touched g d d' := by
  obtain ⟨e, run, tended, -⟩ := showText_tended sound.steady host container words
  obtain ⟨_, d', own, -, rfl⟩ := (showText_blind g words).of_ok run
  exact ⟨d', own, tended.touched⟩

/-- A built-in handler writes into its target, or refuses the value and changes nothing, or the
document refuses, with new nodes at most. -/
theorem BuiltIn.run (builtIn : h.BuiltIn) {target : Target} (value : Value) (sound : d.Sound)
    (node : d.view target.node = some n) (element : n.data.isElement = true) :
    (∃ d', h target value d = .ok () d' ∧ target.Wrote d d') ∨
      (∃ words, h target value d = .error (.notInvokable words) d) ∨
      ∃ x d', h target value d = .error (.dom x) d' ∧ d'.Sound ∧
        ∀ y k, d.view y = some k → d'.view y = some k := by
  cases target with
  | attr g name =>
      dsimp only [Target.node] at node
      obtain ⟨value', same⟩ := builtIn.attr g name value
      obtain ⟨d', run, tinted⟩ := setAttributeValue_tinted sound node element name value'
      exact .inl ⟨d', by rw [same, Writing.edit_ok run], tinted⟩
  | content g =>
      dsimp only [Target.node] at node
      have container : n.data.isContainer = true := isContainer_of_isElement element
      rcases builtIn.content g value with ⟨words, same⟩ | ⟨markup, same⟩ | ⟨typeName, same⟩
      · obtain ⟨d', run, touched⟩ := showText_touched sound node container words
        exact .inl ⟨d', by rw [same, Writing.edit_ok run], touched⟩
      · rcases setInner_run sound node container markup with ⟨d', run, tended⟩ | ⟨x, d', run, rest⟩
        · exact .inl ⟨d', by rw [same, Writing.edit_ok run], tended.touched⟩
        · exact .inr (.inr ⟨x, d', by rw [same, Writing.edit_error run], rest⟩)
      · exact .inr (.inl ⟨typeName, by rw [same]; rfl⟩)

end Handler

/-- A registry of built-in handlers and of tame ones. -/
def Registry.Admissible (r : Registry) : Prop :=
  ∀ tag handler, r.get? tag = some handler → handler.Admissible

namespace Registry

theorem admissible_standard : Registry.standard.Admissible := fun _ _ found =>
  .inl (Handler.builtIn_of_standard found)

/-- Tame handlers can be registered. -/
theorem Admissible.register {r r' : Registry} {tag : String} {handler : Handler}
    (h : r.Admissible) (tame : handler.Tame) (run : r.register tag handler = .ok r') :
    r'.Admissible := by
  unfold Registry.register at run
  cases taken : r.get? tag with
  | some other =>
      rw [taken] at run
      cases run
  | none =>
      rw [taken] at run
      cases run
      intro key found listed
      rw [Registry.get?, List.lookup_append, Option.or_eq_some_iff] at listed
      rcases listed with old | ⟨-, new⟩
      · exact h key found old
      · obtain ⟨front, back, entries, -⟩ := List.lookup_eq_some_iff.1 new
        have mem : (key, found) ∈ [(tag, handler)] := by
          rw [entries]
          simp
        cases List.mem_singleton.1 mem
        exact .inr tame

end Registry

/-! ## Settled trees -/

namespace Instance

variable {i : Instance} {v w : View} {d d' d'' : Document} {g x : NodeId} {name : String}
  {tops : List NodeId}

theorem hosts_bare : i.bare.Hosts x ↔ i.Hosts x := by
  simp [Hosts, Instance.bare, BindingTable.mem_map, BoundBinding.bare]

theorem fills_bare : i.bare.Fills x ↔ i.Fills x := by
  simp [Fills, Instance.bare, BindingTable.mem_map, BoundBinding.bare]

/-- A live tree has been written into: it is settled still, and nothing that was there outside of
it has changed. -/
structure Upheld (i : Instance) (d d' : Document) : Prop where
  sound : d'.Sound
  settled : i.Settled d'.view
  spared : Spared [i.root] d.view d'.view
  root : ∃ n m, d.view i.root = some n ∧ d'.view i.root = some m ∧ m.parent = n.parent

theorem Upheld.refl (sound : d.Sound) (settled : i.Settled d.view) : i.Upheld d d := by
  obtain ⟨n, node⟩ := settled.root
  exact ⟨sound, settled, .refl .., n, n, node, node, rfl⟩

theorem Upheld.trans (sound : d.Sound) (h : i.Upheld d d') (k : i.Upheld d' d'') :
    i.Upheld d d'' := by
  obtain ⟨n, m, node, node', parent⟩ := h.root
  obtain ⟨m', l, same, node'', parent'⟩ := k.root
  rw [node'] at same
  cases same
  exact ⟨k.sound, k.settled, h.spared.trans sound.forest k.spared, n, l, node, node'',
    parent'.trans parent⟩

namespace Settled

/-- A change elsewhere leaves a live tree settled. -/
theorem of_spared (h : i.Settled v) (f : Forest v) (spared : Spared tops v w)
    (root : ¬Inside tops v i.root) (out : ∀ x, i.Hosts x → ¬Inside tops v x) : i.Settled w := by
  obtain ⟨n, node⟩ := h.root
  refine h.congr ⟨n, spared node root⟩ (fun x m host there => ⟨m, spared there (out x host), rfl⟩) ?_
  intro a x host
  obtain ⟨m, there, -⟩ := h.element x host
  exact spared.above_iff f there (out x host)

/-- New nodes leave a live tree as it is. -/
theorem kept (h : i.Settled d.view) (sound : d.Sound) (sound' : d'.Sound)
    (kept : ∀ y k, d.view y = some k → d'.view y = some k) : i.Upheld d d' := by
  have out : ∀ y, ¬Inside [] d.view y := by simp [Inside]
  obtain ⟨n, node⟩ := h.root
  exact ⟨sound', h.of_spared sound.forest (.of_kept kept) (out _) fun y _ => out y, .of_kept kept, n, n,
    node, kept _ _ node, rfl⟩

/-- The content of one of its hosts has changed. -/
theorem touched (h : i.Settled d.view) (sound : d.Sound) (fills : i.Fills g)
    (touched : Touched g d d') : i.Upheld d d' := by
  obtain ⟨n, m, node, node', data, parent⟩ := touched.top
  have inside := h.inside g fills.hosts
  have atop : ∀ a, d'.view.Above a g ↔ d.view.Above a g := fun a =>
    touched.spared.above_top sound.forest node node' parent
  have off : ∀ x, i.Hosts x → x ≠ g → ¬Inside [g] d.view x := fun x host other below =>
    other (h.leaf g x fills host (inside_singleton.1 below))
  have root : ∃ n m, d.view i.root = some n ∧ d'.view i.root = some m ∧ m.parent = n.parent := by
    by_cases same : i.root = g
    · exact ⟨n, m, same ▸ node, same ▸ node', parent⟩
    · obtain ⟨k, top⟩ := h.root
      have out : ¬Inside [g] d.view i.root := fun below =>
        same (sound.forest.above_antisymm node inside (inside_singleton.1 below))
      exact ⟨k, k, top, touched.spared top out, rfl⟩
  have live : ∃ m, d'.view i.root = some m := by
    obtain ⟨-, m, -, top, -⟩ := root
    exact ⟨m, top⟩
  refine ⟨touched.sound, h.congr live ?_ ?_, ?_, root⟩
  · intro x k host there
    by_cases same : x = g
    · rw [same, node] at there
      cases there
      exact ⟨m, same ▸ node', by rw [data]⟩
    · exact ⟨k, touched.spared there (off x host same), rfl⟩
  · intro a x host
    by_cases same : x = g
    · rw [same]
      exact atop a
    · obtain ⟨k, there, -⟩ := h.element x host
      exact touched.spared.above_iff sound.forest there (off x host same)
  · apply touched.spared.lift
    exact List.forall_mem_singleton.2 (inside_singleton.2 inside)

/-- An attribute of one of its hosts has changed. -/
theorem tinted (h : i.Settled d.view) (sound : d.Sound) (hosts : i.Hosts g)
    (tinted : Tinted g name d d') : i.Upheld d d' := by
  obtain ⟨n, m, tag, own, own', node, node', data, data', parent, children, -⟩ := tinted.own
  have grown : Grown [g] d.lenient d'.lenient := by
    refine ⟨tinted.sound.steady, fun {x k} there => ?_, fun {x k} out there => ?_⟩
    · by_cases same : x = g
      · rw [same, view_lenient, node] at there
        cases there
        exact ⟨m, same ▸ node', by rw [data, data']; rfl, parent, children⟩
      · exact ⟨k, tinted.others same there, rfl, rfl, rfl⟩
    · exact tinted.others (by simpa using out) there
  obtain ⟨k, top⟩ := h.root
  obtain ⟨l, top', -, parent', -⟩ := grown.links (show d.lenient.view i.root = some k from top)
  have before : i.Settled d.lenient.view := h
  have after : i.Settled d'.lenient.view := before.grown sound.steady grown
  refine ⟨tinted.sound, after, fun x k there out => ?_, k, l, top, top', parent'⟩
  apply tinted.others _ there
  rintro rfl
  exact out (inside_singleton.2 (h.inside x hosts))

/-- What an admissible handler does to a live tree. -/
theorem call (h : i.bare.Settled d.view) (sound : d.Sound) {b : BoundBinding}
    (mem : b ∈ i.bindings) (admissible : b.handler.Admissible) (value : Value) :
    (∃ d', b.handler b.target value d = .ok () d' ∧ i.bare.Upheld d d') ∨
      (∃ e, b.handler b.target value d = .error e d ∧ ∀ x, e ≠ .dom x) ∨
      ∃ x d', b.handler b.target value d = .error (.dom x) d' ∧ i.bare.Upheld d d' := by
  have hosts : i.bare.Hosts b.target.node := hosts_bare.2 (.inl ⟨b, mem, rfl⟩)
  obtain ⟨n, node, element⟩ := h.element _ hosts
  have wrote : ∀ {d' : Document}, b.target.Wrote d d' → i.bare.Upheld d d' := by
    intro d' wrote
    cases target : b.target with
    | attr g name =>
        rw [target] at wrote hosts
        exact h.tinted sound hosts wrote
    | content g =>
        rw [target] at wrote
        exact h.touched sound (fills_bare.2 (.inl ⟨b, mem, target⟩)) wrote
  rcases admissible with builtIn | tame
  · rcases builtIn.run value sound node element with ⟨d', run, done⟩ | ⟨words, run⟩ |
      ⟨x, d', run, sound', kept⟩
    · exact .inl ⟨d', run, wrote done⟩
    · exact .inr (.inl ⟨_, run, nofun⟩)
    · exact .inr (.inr ⟨x, d', run, h.kept sound sound' kept⟩)
  · cases run : b.handler b.target value d with
    | ok u d' => exact .inl ⟨d', rfl, wrote ((tame _ value d d' n sound node element).1 run)⟩
    | error e d' =>
        obtain rfl := (tame _ value d d' n sound node element).2 e run
        cases e with
        | dom x => exact .inr (.inr ⟨x, d', rfl, .refl sound h⟩)
        | notInvokable words => exact .inr (.inl ⟨_, rfl, nofun⟩)
        | refused words => exact .inr (.inl ⟨_, rfl, nofun⟩)

end Settled

end Instance

end Stencil
