import Stencil.Proofs.Compile.Bench
import Stencil.Proofs.Document.Lasting

/-! # What no compilation undoes

A compilation changes its document by edits alone. What no change of a single slot undoes is
therefore kept by every compilation, whether the template is accepted or refused.
-/

namespace Stencil

open Markup Document

namespace Compile

variable {α β γ : Type} {P : Document → Prop}

/-- A compilation keeps what is true of its document, also when it is refused. -/
def Keeps (P : Document → Prop) (m : Compile α) : Prop :=
  ∀ w, P w.document → P (match m w with | .ok _ w' | .error _ w' => w'.document)

namespace Keeps

theorem pure (a : α) : Keeps P (Pure.pure a) := fun _ h => h

theorem throw (e : TemplateError) : Keeps P (throw e : Compile α) := fun _ h => h

theorem bind {m : Compile α} {f : α → Compile β} (first : Keeps P m) (next : ∀ a, Keeps P (f a)) :
    Keeps P (m >>= f) := by
  intro w h
  have kept := first w h
  change P (match EStateM.bind m f w with | .ok _ w' | .error _ w' => w'.document)
  unfold EStateM.bind
  cases run : m w with
  | ok a w' =>
      rw [run] at kept
      exact next a w' kept
  | error e w' =>
      rw [run] at kept
      exact kept

theorem edit {e : Edit α} (h : Edit.Keeps P e) : Keeps P (Compile.edit e) := by
  intro w there
  have kept := h w.document there
  rw [Compile.edit]
  cases run : e w.document with
  | ok a d => rwa [Edit.after_ok run] at kept
  | error x d => rwa [Edit.after_error run] at kept

theorem ask (question : Document → Except DomError α) : Keeps P (Compile.ask question) :=
  edit (.ask question)

theorem lift (text : Except SyntaxError α) : Keeps P (Compile.lift text) := by
  cases text with
  | ok a => exact .pure a
  | error e => exact .throw (.malformed e)

/-- Hosts and steps are no part of the document. -/
theorem modify {f : Workbench → Workbench} (same : ∀ w, (f w).document = w.document) :
    Keeps P (modify f : Compile Unit) := by
  intro w h
  change P (f w).document
  rwa [same]

theorem get : Keeps P (get : Compile Workbench) := fun _ h => h

theorem trace (config : Config) (step : Unit → String) : Keeps P (Compile.trace config step) := by
  unfold Compile.trace
  split
  · exact .modify fun _ => rfl
  · exact .pure ()

theorem hostFor (node : NodeId) : Keeps P (Compile.hostFor node) := fun _ h => h

theorem refer (node : NodeId) (r : Reference CompiledTemplate) : Keeps P (Compile.refer node r) :=
  (hostFor node).bind fun _ => .modify fun _ => rfl

theorem withHosts {m : Compile α} (h : Keeps P m) : Keeps P (Compile.withHosts m) := by
  unfold Compile.withHosts
  refine get.bind fun _ => bind (modify ?_) fun _ => h.bind fun a => bind (modify ?_) fun _ => .pure a
  · exact fun _ => rfl
  · exact fun _ => rfl

theorem discard {m : Compile α} (h : Keeps P m) : Keeps P (Functor.discard m : Compile PUnit) :=
  h.bind fun _ => .pure _

theorem ite {c : Prop} [Decidable c] {m n : Compile α} (first : c → Keeps P m) (second : ¬c → Keeps P n) :
    Keeps P (if c then m else n) := by
  split
  · exact first ‹_›
  · exact second ‹_›

theorem forIn {xs : List γ} {m : γ → Compile Unit} (h : ∀ x ∈ xs, Keeps P (m x)) :
    Keeps P (ForIn.forIn xs PUnit.unit fun x _ => do
      m x
      Pure.pure (ForInStep.yield PUnit.unit)) := by
  induction xs with
  | nil => exact .pure _
  | cons x xs ih =>
      rw [List.forIn_cons]
      refine ((h x (by simp)).bind fun _ => .pure _).bind fun step => ?_
      cases step with
      | done b => exact .pure b
      | yield b => exact ih fun y mem => h y (by simp [mem])

theorem forM {xs : List γ} {m : γ → Compile PUnit} (h : ∀ x, Keeps P (m x)) : Keeps P (xs.forM m) := by
  induction xs with
  | nil => exact .pure _
  | cons x xs ih => exact (h x).bind fun _ => ih

/-- What holds of a document still holds when the compilation in it has ended. -/
theorem run {m : Compile α} (h : Keeps P m) {d : Document} (there : P d) : P (m.run d).2.1 := by
  have kept := h { document := d } there
  rw [Compile.run]
  cases ended : m { document := d } with
  | ok a w =>
      rw [ended] at kept
      exact kept
  | error e w =>
      rw [ended] at kept
      exact kept

end Keeps

/-! ## Steps -/

theorem keeps_bindDirective (s : Settings) (node : NodeId) (source : Source) (o : Occurrence)
    (attr : Option String) : Keeps P (bindDirective s node source o attr) :=
  (Keeps.lift _).bind fun _ => (Keeps.trace _ _).bind fun _ => .refer node _

section

variable (l : Lasting P) (s : Settings)

include l

theorem keeps_bindAttribute (element : NodeId) (name : String) :
    Keeps P (bindAttribute s element name) := by
  refine .ite (fun _ => .pure _) fun _ => (Keeps.ask _).bind fun value => ?_
  cases value with
  | none => exact .pure _
  | some value =>
      refine (Keeps.lift _).bind fun first => ?_
      cases first with
      | none => exact .pure _
      | some o =>
          exact (Keeps.trace _ _).bind fun _ => (keeps_bindDirective s element _ o _).bind fun _ =>
            .edit (l.setAttributeValue element name _)

theorem keeps_bindAttributes (element : NodeId) : Keeps P (bindAttributes s element) :=
  (Keeps.ask _).bind fun _ => .forM fun name => keeps_bindAttribute l s element name

omit l in
theorem keeps_soleDirective (element : NodeId) : Keeps P (soleDirective s element) := by
  refine (Keeps.ask _).bind fun children => ?_
  split
  · refine (Keeps.ask _).bind fun data => ?_
    cases data with
    | text value => exact (Keeps.lift _).bind fun _ => .pure _
    | element | comment | fragment | doctype => exact .pure _
  · exact .pure _

theorem keeps_splitOff (source : Source) (parent node : NodeId) (o : Occurrence) :
    Keeps P (splitOff s source parent node o) := by
  have wrapped : Keeps P (do
      let wrapper ← Compile.edit do
        let wrapper ← Document.createElement s.config.wrapperTag
        Document.insertBefore parent wrapper node
        return wrapper
      bindDirective s wrapper source o none) :=
    (Keeps.edit ((l.create _).bind fun _ => (l.insertBefore parent _ node).bind fun _ => .pure _)).bind
      fun _ => keeps_bindDirective s _ source o none
  unfold splitOff
  by_cases empty : o.preamble.isEmpty
  · simp only [if_pos empty]
    exact wrapped
  · simp only [if_neg empty]
    exact (Keeps.edit ((l.create _).bind fun _ => l.insertBefore parent _ node)).bind fun _ => wrapped

theorem keeps_splitText (node : NodeId) (value : String) : Keeps P (splitText s node value) := by
  unfold splitText
  refine (Keeps.lift _).bind fun found => .ite (fun _ => .pure _) fun _ =>
    (Keeps.trace _ _).bind fun _ => (Keeps.ask _).bind fun above => ?_
  cases above with
  | none => exact .pure _
  | some parent =>
      refine Keeps.bind (Keeps.forIn fun o _ => keeps_splitOff l s _ parent node o) fun _ => ?_
      by_cases empty : (Occurrence.trailing value).isEmpty
      · simp only [if_pos empty]
        exact .edit (l.remove parent node)
      · simp only [if_neg empty]
        exact (Keeps.edit ((l.create _).bind fun _ => l.insertBefore parent _ node)).bind fun _ =>
          .edit (l.remove parent node)

omit l s in
theorem keeps_soleBlockAmong (found : Option NodeId) (children : List NodeId) :
    Keeps P (soleBlockAmong found children) := by
  induction children generalizing found with
  | nil => exact .pure _
  | cons child more ih =>
      rw [soleBlockAmong]
      refine (Keeps.ask _).bind fun data => ?_
      cases data with
      | text value => exact .ite (fun _ => ih found) fun _ => .pure _
      | element name attributes =>
          exact (Keeps.ask _).bind fun marked => .ite (fun _ => ih _) fun _ => .pure _
      | comment | fragment | doctype => exact .pure _

theorem keeps_merge (element marker : NodeId) (identity : String) :
    Keeps P (merge s element marker identity) :=
  (Keeps.trace _ _).bind fun _ => .edit ((l.setAttributeValue element _ _).bind fun _ =>
    (l.clear element).bind fun _ => (l.moveChildren marker element).bind fun _ => l.release marker)

theorem keeps_promote (element : NodeId) : Keeps P (promote s element) := by
  refine (Keeps.ask _).bind fun children => (keeps_soleBlockAmong none children).bind fun sole => ?_
  cases sole with
  | none => exact .pure _
  | some marker => exact (Keeps.ask _).bind fun _ => keeps_merge l s element marker _

omit s in
theorem keeps_moveAttributes (source target : NodeId) : Edit.Keeps P (moveAttributes source target) := by
  refine (Edit.Keeps.ask _).bind fun names => .forM fun name _ => ?_
  refine .ite (fun _ => .pure _) fun _ => (Edit.Keeps.ask _).bind fun value => ?_
  cases value with
  | none => exact l.removeAttribute source name
  | some value => exact (l.setAttributeValue target name value).bind fun _ =>
      l.removeAttribute source name

omit s in
theorem keeps_collect (slots : List (List (Reference CompiledTemplate))) (node copy : NodeId) :
    Keeps P (collect slots node copy) := by
  refine Keeps.get.bind fun w => ?_
  cases w.hosts.takeSlot? node with
  | none => exact .pure _
  | some taken =>
      refine Keeps.bind (.modify ?_) fun _ =>
        (Keeps.edit (l.setAttributeValue copy _ _)).bind fun _ => .pure _
      exact fun _ => rfl

omit s in
theorem keeps_gather (fuel : Nat) (slots : List (List (Reference CompiledTemplate)))
    (stack : List (NodeId × NodeId)) : Keeps P (gather fuel slots stack) := by
  induction fuel generalizing slots stack with
  | zero =>
      cases stack with
      | nil => exact .pure _
      | cons pair stack => exact .throw _
  | succ fuel ih =>
      cases stack with
      | nil => exact .pure _
      | cons pair stack =>
          exact (keeps_collect l slots pair.1 pair.2).bind fun _ => (Keeps.ask _).bind fun _ =>
            (Keeps.ask _).bind fun _ => ih _ _

omit s in
theorem keeps_emit (root : NodeId) (expression : Option String) : Keeps P (emit root expression) :=
  (Keeps.edit (l.copyTree root)).bind fun _ => (Keeps.ask _).bind fun _ =>
    (keeps_gather l _ _ _).bind fun _ => (Keeps.ask _).bind fun _ => .pure _

/-! ## The walk -/

theorem keeps_enter (element : NodeId) (name : String) : Keeps P (enter s element name) :=
  (Keeps.trace _ _).bind fun _ => keeps_bindAttributes l s element

variable {below : NodeId → Compile Unit} (h : ∀ id, Keeps P (below id))

include h

theorem keeps_part (element : NodeId) : Keeps P (part s element below) :=
  .withHosts ((Keeps.ask _).bind fun name => (keeps_enter l s element name).bind fun _ =>
    (Keeps.ask _).bind fun expression => (Keeps.edit (l.removeAttribute element _)).bind fun _ =>
      (Keeps.ask _).bind fun _ => (Keeps.forM h).bind fun _ => keeps_emit l element expression)

/-- An element is compiled as a part of its own, after it has handed on the references that were made
to it before. -/
theorem keeps_extractAt (element host : NodeId) : Keeps P (do
    match (← get).hosts.rekey? element host with
    | some (_, hosts) => modify fun w => { w with hosts }
    | none => discard (Compile.hostFor host)
    Compile.refer host (.template (← part s element below))) := by
  have made : Keeps P (do Compile.refer host (.template (← part s element below))) :=
    (keeps_part l s h element).bind fun part => .refer host _
  refine Keeps.get.bind fun w => ?_
  cases w.hosts.rekey? element host with
  | none => exact (Keeps.discard (.hostFor host)).bind fun _ => made
  | some pair =>
      refine Keeps.bind (.modify ?_) fun _ => made
      exact fun _ => rfl

theorem keeps_extract (element : NodeId) : Keeps P (extract s element below) := by
  refine (Keeps.ask _).bind fun name => (Keeps.ask _).bind fun identity => (Keeps.trace _ _).bind
    fun _ => (Keeps.edit (l.create _)).bind fun host =>
      (Keeps.edit (keeps_moveAttributes l element host)).bind fun _ => (Keeps.ask _).bind fun above => ?_
  have further := keeps_extractAt l s h element host
  cases above with
  | none => exact (Keeps.throw _).bind fun _ => further
  | some parent => exact (Keeps.edit (l.replace parent host element)).bind fun _ => further

theorem keeps_content (element : NodeId) : Keeps P (content s element below) := by
  refine (keeps_soleDirective s element).bind fun sole => ?_
  cases sole with
  | none => exact (Keeps.ask _).bind fun _ => .forM h
  | some found =>
      exact (keeps_bindDirective s element _ _ none).bind fun _ => .edit (l.discardChildren element)

end

theorem keeps_visit (l : Lasting P) (s : Settings) (fuel : Nat) (id : NodeId) :
    Keeps P (visit s fuel id) := by
  induction fuel generalizing id with
  | zero => exact .throw _
  | succ fuel ih =>
      refine (Keeps.ask _).bind fun data => ?_
      cases data with
      | text value => exact keeps_splitText l s id value
      | element name attributes =>
          have entered : Keeps P (do
              if ← Compile.ask (·.hasAttribute id Marker.block) then extract s id (visit s fuel)
              else content s id (visit s fuel)) :=
            (Keeps.ask _).bind fun _ => .ite (fun _ => keeps_extract l s ih id) fun _ =>
              keeps_content l s ih id
          exact (keeps_enter l s id name).bind fun _ => (Keeps.ask _).bind fun _ =>
            .ite (fun _ => entered) fun _ => (keeps_promote l s id).bind fun _ => entered
      | comment | fragment | doctype => exact .pure ()

theorem keeps_root (l : Lasting P) (s : Settings) (fuel : Nat) (id : NodeId) :
    Keeps P (root s fuel id) := by
  refine (Keeps.ask _).bind fun data => ?_
  cases data with
  | text value => exact keeps_splitText l s id value
  | element name attributes =>
      exact (keeps_enter l s id name).bind fun _ => keeps_content l s (keeps_visit l s fuel) id
  | comment | fragment | doctype => exact .pure ()

theorem keeps_compileNode (l : Lasting P) (config : Config) (title : String) (id : NodeId) :
    Keeps P (compileNode config title id) :=
  (Keeps.trace _ _).bind fun _ => (Keeps.ask _).bind fun levels =>
    .withHosts ((keeps_root l { config, name := title } levels id).bind fun _ => keeps_emit l id none)

/-- What no change of a single slot undoes holds after a template has been compiled or refused. -/
theorem keeps_compileSource (l : Lasting P) (config : Config) (source : Source) :
    Keeps P (compileSource config source) := by
  refine (Keeps.lift _).bind fun markup => (Keeps.edit (l.parseMarkup _)).bind fun fragment =>
    (Keeps.ask _).bind fun first => ?_
  cases first with
  | none => exact .throw _
  | some id => exact keeps_compileNode l config source.name id

end Compile

end Stencil
