import Stencil.Proofs.Compile.Table
import Stencil.Proofs.Document.Surgery

/-! # Computations on a workbench

A computation follows a plan if it succeeds where the plan has a value and is refused, with
the same error, where the plan has none. Plans and computations are put together alike.
-/

namespace Stencil

open Markup NodeTree View

/-! ## Workbenches -/

/-- The document is sound, the table of hosts fits together, and every host is a node with
references. -/
structure Workbench.Sound (w : Workbench) : Prop where
  document : w.document.Sound
  aligned : w.hosts.Aligned
  live : ∀ {x : NodeId} {s : Slot}, w.hosts.slot? x = some s → s ≠ [] ∧ w.document.view x ≠ none

namespace Hosts

theorem slotOf_eq_nil {h : Hosts} {x : NodeId} (none_there : h.slot? x = none) : h.slotOf x = [] := by
  simp [slotOf, none_there]

theorem slotOf_eq {h : Hosts} {x : NodeId} {s : Slot} (there : h.slot? x = some s) :
    h.slotOf x = s := by
  simp [slotOf, there]

theorem Aligned.slotOf_add {h : Hosts} (a : h.Aligned) (x : NodeId)
    (r : Reference CompiledTemplate) : (h.add x r).slotOf x = h.slotOf x ++ [r] :=
  slotOf_eq (a.slot?_add x r)

theorem Aligned.slotOf_add_of_ne {h : Hosts} (a : h.Aligned) {x y : NodeId}
    (r : Reference CompiledTemplate) (other : y ≠ x) : (h.add x r).slotOf y = h.slotOf y := by
  rw [slotOf, a.slot?_add_of_ne r other]
  rfl

end Hosts

namespace Workbench.Sound

variable {w : Workbench} {x : NodeId}

/-- A number that is not in use is the number of no host. -/
theorem slot?_of_fresh (h : w.Sound) (fresh : w.document.view x = none) :
    w.hosts.slot? x = none := by
  cases there : w.hosts.slot? x with
  | none => rfl
  | some s => exact ((h.live there).2 fresh).elim

theorem slotOf_of_fresh (h : w.Sound) (fresh : w.document.view x = none) :
    w.hosts.slotOf x = [] :=
  Hosts.slotOf_eq_nil (h.slot?_of_fresh fresh)

theorem traced (h : w.Sound) (steps : List String) : Workbench.Sound { w with steps } where
  document := h.document
  aligned := h.aligned
  live := h.live

/-- A change of the document in which no host gets lost. -/
theorem edited (h : w.Sound) {d : Document} (sound : d.Sound)
    (kept : ∀ x, w.hosts.slotOf x ≠ [] → w.document.view x ≠ none → d.view x ≠ none) :
    Workbench.Sound { w with document := d } where
  document := sound
  aligned := h.aligned
  live {x s} there := by
    obtain ⟨filled, live⟩ := h.live there
    exact ⟨filled, kept x (by rwa [Hosts.slotOf_eq there]) live⟩

/-- One more reference of a node. -/
theorem added (h : w.Sound) (r : Reference CompiledTemplate) (live : w.document.view x ≠ none) :
    Workbench.Sound { w with hosts := w.hosts.add x r } where
  document := h.document
  aligned := h.aligned.add x r
  live {y s} there := by
    by_cases same : y = x
    · subst same
      rw [h.aligned.slot?_add] at there
      cases there
      exact ⟨by simp, live⟩
    · rw [h.aligned.slot?_add_of_ne _ same] at there
      exact h.live there

end Workbench.Sound

/-! ## Following a plan -/

namespace Compile

variable {α β γ δ : Type} {w w' : Workbench}

/-- A computation does what a plan says. -/
def Follows (m : Compile α) (plan : Except SyntaxError β) (post : α → β → Workbench → Prop)
    (w : Workbench) : Prop :=
  match plan with
  | .ok b => ∃ a w', m w = .ok a w' ∧ post a b w'
  | .error e => ∃ w', m w = .error (.malformed e) w'

theorem ok_bind (b : β) (k : β → Except SyntaxError δ) : (Except.ok b >>= k) = k b := rfl

namespace Follows

variable {m : Compile α} {plan : Except SyntaxError β} {post : α → β → Workbench → Prop}

theorem pure {a : α} {b : β} (h : post a b w) :
    Follows (Pure.pure a) (Pure.pure b : Except SyntaxError β) post w :=
  ⟨a, w, rfl, h⟩

theorem done {a : α} {b : β} (run : m w = .ok a w') (h : post a b w') :
    Follows m (.ok b) post w :=
  ⟨a, w', run, h⟩

theorem bind {f : α → Compile γ} {k : β → Except SyntaxError δ} {after : γ → δ → Workbench → Prop}
    (first : Follows m plan post w)
    (then_ : ∀ a b w', post a b w' → Follows (f a) (k b) after w') :
    Follows (m >>= f) (plan >>= k) after w := by
  cases plan with
  | ok b =>
      obtain ⟨a, w', run, h⟩ := first
      have next := then_ a b w' h
      unfold Follows at next ⊢
      rw [bind_ok run]
      exact next
  | error e =>
      obtain ⟨w', run⟩ := first
      exact ⟨w', bind_error run⟩

/-- A computation that comes to the same as another one elsewhere. -/
theorem via {m' : Compile α} (same : m w = m' w') (h : Follows m' plan post w') :
    Follows m plan post w := by
  unfold Follows at h ⊢
  rwa [same]

/-- A step of the computation of which the plan says nothing. -/
theorem step {f : α → Compile γ} {a : α} {after : γ → β → Workbench → Prop}
    (run : m w = .ok a w') (next : Follows (f a) plan after w') :
    Follows (m >>= f) plan after w :=
  .via (bind_ok run) next

/-- Steps after the last of which the plan says anything. -/
theorem andThen {f : α → Compile γ} {after : γ → β → Workbench → Prop}
    (first : Follows m plan post w)
    (then_ : ∀ a b w', plan = .ok b → post a b w' → ∃ c w'', f a w' = .ok c w'' ∧ after c b w'') :
    Follows (m >>= f) plan after w := by
  cases plan with
  | ok b =>
      obtain ⟨a, w', run, h⟩ := first
      obtain ⟨c, w'', run', h'⟩ := then_ a b w' rfl h
      exact ⟨c, w'', (bind_ok run).trans run', h'⟩
  | error e =>
      obtain ⟨w', run⟩ := first
      exact ⟨w', bind_error run⟩

/-- Steps after the last of which the plan says anything but how its value is arranged. -/
theorem andThen_pure {f : α → Compile γ} {g : β → δ} {after : γ → δ → Workbench → Prop}
    (first : Follows m plan post w)
    (then_ : ∀ a b w', post a b w' → ∃ c w'', f a w' = .ok c w'' ∧ after c (g b) w'') :
    Follows (m >>= f) (plan >>= fun b => Pure.pure (g b)) after w :=
  first.bind fun a b w' h => then_ a b w' h

/-- The last steps of a plan may be nothing but a rearrangement of its value. -/
theorem map {g : β → δ} {after : α → δ → Workbench → Prop} (h : Follows m plan post w)
    (weaker : ∀ a b w', post a b w' → after a (g b) w') :
    Follows m (plan >>= fun b => Pure.pure (g b)) after w := by
  cases plan with
  | ok b =>
      obtain ⟨a, w', run, h⟩ := h
      exact ⟨a, w', run, weaker a b w' h⟩
  | error e => exact h

/-- What has been done according to a plan has been planned. -/
theorem planned (h : Follows m plan post w) :
    Follows m plan (fun a b w' => plan = .ok b ∧ post a b w') w := by
  cases plan with
  | ok b =>
      obtain ⟨a, w', run, outcome⟩ := h
      exact ⟨a, w', run, rfl, outcome⟩
  | error e => exact h

theorem lift (text : Except SyntaxError β) (w : Workbench) :
    Follows (Compile.lift text) text (fun a b w' => a = b ∧ w = w') w := by
  cases text with
  | ok b => exact ⟨b, w, rfl, rfl, rfl⟩
  | error e => exact ⟨w, rfl⟩

end Follows

/-! ## Steps -/

theorem edit_ok {e : Edit α} {a : α} {d : Document} (run : e w.document = .ok a d) :
    edit e w = .ok a { w with document := d } := by
  simp [edit, run]

theorem ask_ok {question : Document → Except DomError α} {a : α}
    (answer : question w.document = .ok a) : ask question w = .ok a w := by
  unfold ask
  rw [edit_ok (Edit.ask_ok answer)]

/-- Reporting a step changes neither the document nor the hosts. -/
theorem trace_ok (config : Config) (step : Unit → String) (w : Workbench) :
    ∃ steps, trace config step w = .ok () { w with steps } := by
  unfold trace
  split
  · exact ⟨step () :: w.steps, rfl⟩
  · exact ⟨w.steps, rfl⟩

theorem Follows.trace {config : Config} {report : Unit → String} {m : Compile α}
    {plan : Except SyntaxError β} {post : α → β → Workbench → Prop}
    (h : ∀ steps, Follows m plan post { w with steps }) :
    Follows (Compile.trace config report >>= fun _ => m) plan post w := by
  obtain ⟨steps, run⟩ := trace_ok config report w
  exact .step run (h steps)

/-- A computation with hosts of its own leaves the table as it was. -/
theorem Follows.withHosts {body : Compile α} {plan : Except SyntaxError β}
    {post after : α → β → Workbench → Prop} (h : Follows body plan post { w with hosts := {} })
    (weaker : ∀ a b inner, post a b inner → after a b { inner with hosts := w.hosts }) :
    Follows (Compile.withHosts body) plan after w := by
  refine .step (show (get : Compile Workbench) w = .ok w w from rfl) ?_
  refine .step (show (modify fun w => { w with hosts := {} } : Compile Unit) w =
    .ok () { w with hosts := {} } from rfl) ?_
  refine h.andThen ?_
  intro a b inner _ outcome
  exact ⟨a, _, rfl, weaker a b inner outcome⟩

theorem refer_ok (x : NodeId) (r : Reference CompiledTemplate) (w : Workbench) :
    refer x r w = .ok () { w with hosts := w.hosts.add x r } := by
  have known : hostFor x w =
      .ok (w.hosts.hostFor x).1 { w with hosts := (w.hosts.hostFor x).2 } := rfl
  unfold refer
  rw [bind_ok known]
  rfl

/-! ## Directives -/

theorem bindDirective_follows (s : Settings) (x : NodeId) (source : Source) (o : Occurrence)
    (attr : Option String) (w : Workbench) :
    Follows (bindDirective s x source o attr) (Plan.binding source o attr)
      (fun _ b w' => w'.document = w.document ∧ w'.hosts = w.hosts.add x (.binding b)) w := by
  unfold bindDirective Plan.binding
  cases found : o.directive source with
  | error e => exact ⟨w, rfl⟩
  | ok directive =>
      refine .step (show lift (.ok directive) w = .ok directive w from rfl) (.trace fun steps => ?_)
      exact .done (refer_ok ..) ⟨rfl, rfl⟩

/-- The references that one node has got, nothing else being changed but the node itself. -/
structure Dressed (w w' : Workbench) (x : NodeId) (slot : Slot) : Prop where
  sound : w'.Sound
  frame : ∀ y, y ≠ x → w'.document.view y = w.document.view y
  own : w'.hosts.slotOf x = w.hosts.slotOf x ++ slot
  others : ∀ y, y ≠ x → w'.hosts.slotOf y = w.hosts.slotOf y

namespace Dressed

variable {w₁ w₂ : Workbench} {x : NodeId} {s t : Slot}

theorem refl (h : w.Sound) (x : NodeId) : Dressed w w x [] where
  sound := h
  frame _ _ := rfl
  own := by simp
  others _ _ := rfl

theorem trans (first : Dressed w w₁ x s) (second : Dressed w₁ w₂ x t) :
    Dressed w w₂ x (s ++ t) where
  sound := second.sound
  frame y other := (second.frame y other).trans (first.frame y other)
  own := by rw [second.own, first.own, List.append_assoc]
  others y other := (second.others y other).trans (first.others y other)

theorem add (h : w.Sound) (r : Reference CompiledTemplate) (live : w.document.view x ≠ none)
    {w' : Workbench} (document : w'.document = w.document) (hosts : w'.hosts = w.hosts.add x r) :
    Dressed w w' x [r] where
  sound := by
    have sound := h.added r live
    refine ⟨document ▸ h.document, hosts ▸ sound.aligned, fun {y s} there => ?_⟩
    rw [hosts] at there
    rw [document]
    exact sound.live there
  frame y _ := by rw [document]
  own := by rw [hosts, h.aligned.slotOf_add]
  others y other := by rw [hosts, h.aligned.slotOf_add_of_ne _ other]

/-- Reported steps do not count. -/
theorem untraced {steps : List String} (h : Dressed { w with steps } w₁ x s) :
    Dressed w w₁ x s where
  sound := h.sound
  frame := h.frame
  own := h.own
  others := h.others

/-- A change of the node alone. -/
theorem edited (h : Dressed w w₁ x s) {d : Document} (sound : d.Sound) (live : d.view x ≠ none)
    (frame : ∀ y, y ≠ x → d.view y = w₁.document.view y) :
    Dressed w { w₁ with document := d } x s where
  sound := by
    refine h.sound.edited sound fun y _ there => ?_
    by_cases same : y = x
    · exact same ▸ live
    · rwa [frame y same]
  frame y other := (frame y other).trans (h.frame y other)
  own := h.own
  others := h.others

end Dressed

/-! ## Attributes -/

theorem putField_split {before after : List (String × Value)} {name : String} {value : Value}
    (v : Value) (out : name ∉ before.map Prod.fst) :
    Value.putField name v (before ++ (name, value) :: after) = before ++ (name, v) :: after := by
  induction before with
  | nil => simp [Value.putField]
  | cons entry before ih =>
      rw [List.map_cons, List.mem_cons, not_or] at out
      simp [Value.putField, Ne.symm out.1, ih out.2]

variable {x : NodeId} {tag : String} {q : Option NodeId} {kids : List NodeId}
  {front more : List (String × Value)} {name : String} {value : Value}

/-- No attribute has the name of one that comes later. -/
theorem not_mem_front (h : w.document.Sound)
    (node : w.document.view x = some {
      data := .element tag (front ++ (name, value) :: more), parent := q, children := kids }) :
    name ∉ front.map Prod.fst := by
  have distinct : ((front ++ (name, value) :: more).map Prod.fst).Nodup :=
    h.forest.attributes node
  rw [List.map_append, List.map_cons, List.nodup_append] at distinct
  exact fun mem => distinct.2.2 name mem name (by simp) rfl

theorem lookup_split (out : name ∉ front.map Prod.fst) :
    (front ++ (name, value) :: more).lookup name = some value := by
  induction front with
  | nil => simp
  | cons entry front ih =>
      rw [List.map_cons, List.mem_cons, not_or] at out
      rw [List.cons_append, List.lookup_cons, beq_eq_false_iff_ne.2 out.1]
      exact ih out.2

/-- A directive in an attribute is bound, and the attribute emptied. -/
theorem bindAttribute_follows (s : Settings) (h : w.Sound)
    (node : w.document.view x = some {
      data := .element tag (front ++ (name, value) :: more), parent := q, children := kids }) :
    Follows (bindAttribute s x name) (Plan.ofAttribute s name value)
      (fun _ outcome w' => Dressed w w' x outcome.2 ∧
        w'.document.view x = some {
          data := .element tag (front ++ (name, outcome.1) :: more), parent := q
          children := kids }) w := by
  unfold bindAttribute Plan.ofAttribute
  have out := not_mem_front h.document node
  have asked : ask (·.attribute? x name) w = .ok (some value.text) w := by
    refine ask_ok ?_
    rw [Document.known_attribute node, lookup_split out]
    rfl
  by_cases block : name = Marker.block
  · rw [if_pos block, if_pos block]
    exact .pure ⟨.refl h x, node⟩
  · rw [if_neg block, if_neg block]
    refine .step asked ((Follows.lift _ w).bind ?_)
    rintro first _ _ ⟨rfl, rfl⟩
    cases first with
    | none => exact .pure ⟨.refl h x, node⟩
    | some o =>
        refine .trace fun steps => (bindDirective_follows s x _ o (some name) _).andThen_pure ?_
        intro _ b w₁ bound
        have dressed : Dressed w w₁ x [.binding b] := .add h _ (by simp [node]) bound.1 bound.2
        have node₁ := node
        rw [show w.document = w₁.document from bound.1.symm] at node₁
        obtain ⟨d, run, sound, node₂, frame⟩ :=
          Document.setAttributeValue_ok dressed.sound.document node₁ name (.string "")
        rw [putField_split _ out] at node₂
        exact ⟨(), _, edit_ok run, dressed.edited sound (by simp [node₂]) frame, node₂⟩

/-- The attributes behind `front` are bound, and those with a directive emptied. -/
theorem bindEach_follows (s : Settings) (attributes front : List (String × Value)) (w : Workbench)
    (h : w.Sound)
    (node : w.document.view x = some {
      data := .element tag (front ++ attributes), parent := q, children := kids }) :
    Follows ((attributes.map Prod.fst).forM (bindAttribute s x)) (Plan.ofAttributes s attributes)
      (fun _ outcome w' => Dressed w w' x outcome.2 ∧
        w'.document.view x = some {
          data := .element tag (front ++ outcome.1), parent := q, children := kids }) w := by
  induction attributes generalizing front w with
  | nil => exact .pure ⟨.refl h x, node⟩
  | cons entry more ih =>
      obtain ⟨name, value⟩ := entry
      rw [List.map_cons, List.forM, Plan.ofAttributes]
      refine (bindAttribute_follows s h node).bind ?_
      rintro _ ⟨left, own⟩ w₁ ⟨dressed, node₁⟩
      refine (ih (front ++ [(name, left)]) w₁ dressed.sound (by simpa using node₁)).map ?_
      intro _ outcome w' others
      exact ⟨dressed.trans others.1, by simpa using others.2⟩

theorem bindAttributes_follows (s : Settings) {own : List (String × Value)} (h : w.Sound)
    (node : w.document.view x = some {
      data := .element tag own, parent := q, children := kids }) :
    Follows (bindAttributes s x) (Plan.ofAttributes s own)
      (fun _ outcome w' => Dressed w w' x outcome.2 ∧
        w'.document.view x = some {
          data := .element tag outcome.1, parent := q, children := kids }) w :=
  .step (ask_ok (Document.known_names node)) (bindEach_follows s own [] w h node)

end Compile

end Stencil
