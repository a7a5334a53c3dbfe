import Mathlib.Data.List.Nodup
import Stencil.Proofs.Markup.Growth
import Stencil.Proofs.Render.Hosting
import Stencil.Proofs.Render.Settling

/-! # Writing

What the built-in handlers do to a dressed tree: an attribute that is there receives a value,
an empty element receives content, and every other target keeps what it has received.
-/

namespace Stencil

open Markup NodeTree Document Edit

namespace Dress

/-- What a target has received so far. -/
def received (D : Dress) : Target → Filling
  | .content id => { content := (D.content id).map (List.map shape) }
  | .attr id name => { attributes := ((D.value id name).map fun value => (name, value)).toList }

@[simp] theorem received_bare (T : Target) : bare.received T = {} := by
  cases T <;> rfl

theorem received_unmark (D : Dress) (id : NodeId) (T : Target) :
    (D.unmark id).received T = D.received T := by
  cases T <;> rfl

theorem received_write_self (D : Dress) (id : NodeId) (name : String) (value : Value) :
    (D.write id name value).received (.attr id name) = { attributes := [(name, value)] } := by
  simp [received, write]

theorem received_write_of_ne (D : Dress) {id : NodeId} {name : String} (value : Value) {T : Target}
    (other : T ≠ .attr id name) : (D.write id name value).received T = D.received T := by
  cases T with
  | content x => rfl
  | attr x n =>
      have apart : ¬(x = id ∧ n = name) := by
        rintro ⟨rfl, rfl⟩
        exact other rfl
      simp [received, write, apart]

theorem received_fill_self {D : Dress} {id : NodeId} (empty : D.content id = none)
    (ts : List (NodeTree NodeId)) :
    (D.fill id ts).received (.content id) = { content := some (ts.map shape) } := by
  simp [received, empty]

theorem received_fill_of_ne (D : Dress) {id : NodeId} (ts : List (NodeTree NodeId)) {T : Target}
    (other : T ≠ .content id) : (D.fill id ts).received T = D.received T := by
  cases T with
  | attr x n => rfl
  | content x =>
      have apart : x ≠ id := by
        rintro rfl
        exact other rfl
      simp [received, content_fill_of_ne D ts apart]

theorem content_eq_none {D : Dress} {id : NodeId} (h : D.received (.content id) = {}) :
    D.content id = none := by
  cases content : D.content id with
  | none => rfl
  | some ts => simp [received, content] at h

end Dress

/-! ## Attributes -/

theorem putField_of_mem {name : String} (value : Value) {entries : List (String × Value)}
    (nodup : (entries.map Prod.fst).Nodup) (mem : name ∈ entries.map Prod.fst) :
    Value.putField name value entries =
      entries.map fun entry => (entry.1, if entry.1 = name then value else entry.2) := by
  induction entries with
  | nil => cases mem
  | cons entry entries ih =>
      obtain ⟨key, own⟩ := entry
      obtain ⟨out, rest⟩ := List.nodup_cons.1 nodup
      rw [Value.putField]
      by_cases same : key = name
      · subst same
        have others : entries.map (fun entry => (entry.1, if entry.1 = key then value else entry.2)) =
            entries := by
          refine (List.map_congr_left fun entry listed => ?_).trans (List.map_id entries)
          have apart : entry.1 ≠ key := by
            rintro rfl
            exact out (List.mem_map.2 ⟨entry, listed, rfl⟩)
          simp [apart]
        simp [others]
      · have further : name ∈ entries.map Prod.fst :=
          (List.mem_cons.1 mem).resolve_left fun h => same h.symm
        simp [same, ih rest further]

theorem attributes_eq_ok {d : Document} {id : NodeId} {n : Node} {tag : String}
    {own : List (String × Value)} (node : d.view id = some n) (data : n.data = .element tag own) :
    d.attributes id = .ok own := by
  simp [Document.attributes, data_eq_ok node, data, bind, Except.bind, pure, Except.pure]

namespace Worn

variable {d d' : Document} {w : View} {D : Dress} {C s : NodeTree NodeId}
  {rest : List (NodeTree NodeId)}

/-- Changing the attributes of an element as the new dress says. -/
theorem reattribute {E : Dress} {q : Option NodeId} {tag : String} {own : List (String × Value)}
    (h : Worn d w D C rest) (inside : Within none C q s) (data : s.data = .element tag own)
    {g : List (String × Value) → Node → Node}
    (same : ∀ n, n.data = .element tag (D.attributes s.label own) →
      g (D.attributes s.label own) n = { n with data := .element tag (E.attributes s.label own) })
    (off : ∀ x, x ≠ s.label → ∀ data, E.data x data = D.data x data)
    (content : E.content = D.content) :
    ∃ d', (ask (·.attributes s.label) >>= fun entries => modifyNode s.label (g entries)) d =
      .ok () d' ∧ Worn d' w E C rest := by
  have node := h.record inside
  have current : ∀ n : Node, n.data = D.data s.label s.data →
      g (D.attributes s.label own) n = { n with data := E.data s.label s.data } := by
    intro n here
    rw [data] at here ⊢
    exact same n here
  rw [data] at node
  refine ⟨_, ?_, h.redata inside current off content⟩
  rw [bind_ok (ask_ok (attributes_eq_ok node rfl)), modifyNode_ok _ node]

theorem removeMarker (h : Worn d w D C rest) {q : Option NodeId} (inside : Within none C q s)
    (element : s.data.isElement = true) :
    ∃ d', removeAttribute s.label Marker.host d = .ok () d' ∧
      Worn d' w (D.unmark s.label) C rest := by
  cases data : s.data with
  | element tag own =>
      have left : (D.attributes s.label own).filter (·.1 != Marker.host) =
          (D.unmark s.label).attributes s.label own := by
        simp only [Dress.attributes, Dress.unmark, List.filter_map, List.filter_filter,
          Function.comp_def, if_true, Bool.true_and]
        congr 1
        refine List.filter_congr fun entry _ => ?_
        cases D.unmarked s.label <;> cases hm : entry.1 == Marker.host <;> simp [bne, hm]
      refine h.reattribute inside data (fun n current => ?_) ?_ rfl
      · simp only [current, left]
      · intro x other data
        cases data with
        | element tag own => simp [Dress.data, Dress.attributes, Dress.unmark, other]
        | text | comment | fragment | doctype => rfl
  | text | comment | fragment | doctype =>
      rw [data] at element
      cases element

theorem setAttributeValue (h : Worn d w D C rest) {q : Option NodeId} (inside : Within none C q s)
    {name : String} (present : name ∈ s.data.attributes.map Prod.fst)
    (ordinary : name ≠ Marker.host) (value : Value) :
    ∃ d', Document.setAttributeValue s.label name value d = .ok () d' ∧
      Worn d' w (D.write s.label name value) C rest := by
  have fits := inside.fits h.fits
  cases data : s.data with
  | element tag own =>
      rw [data] at present
      have names : (D.attributes s.label own).map Prod.fst =
          (own.filter fun entry => !(D.unmarked s.label && entry.1 == Marker.host)).map Prod.fst := by
        simp [Dress.attributes, Function.comp_def]
      have nodup : (own.map Prod.fst).Nodup := by
        cases s with
        | node id _ children =>
            subst data
            exact fits.1
      have there : name ∈ (D.attributes s.label own).map Prod.fst := by
        obtain ⟨entry, listed, rfl⟩ := List.mem_map.1 present
        rw [names]
        exact List.mem_map.2 ⟨entry, List.mem_filter.2 ⟨listed, by simp [ordinary]⟩, rfl⟩
      have written : Value.putField name value (D.attributes s.label own) =
          (D.write s.label name value).attributes s.label own := by
        rw [putField_of_mem value (names ▸ nodup.sublist (List.filter_sublist.map _)) there]
        simp only [Dress.attributes, Dress.write, List.map_map]
        refine List.map_congr_left fun entry _ => ?_
        by_cases same : entry.1 = name <;> simp [same]
      refine h.reattribute inside data (fun n current => ?_) ?_ rfl
      · simp only [current, written]
      · intro x other data
        cases data with
        | element tag own => simp [Dress.data, Dress.attributes, Dress.write, other]
        | text | comment | fragment | doctype => rfl
  | text | comment | fragment | doctype =>
      rw [data] at present
      cases present

/-! ## Content -/

/-- An empty element shows a text. -/
theorem showText (h : Worn d w D C rest) (hollow : Hollow C s) (empty : D.content s.label = none)
    (words : String) :
    ∃ d' us, Handler.showText s.label words d = .ok () d' ∧
      us.map shape = [.node () (.text words) []] ∧ Worn d' w (D.fill s.label us) C rest := by
  obtain ⟨q, inside⟩ := hollow.inside
  have childless : d.firstChild? s.label = .ok none := by
    have none_there : D.children s.label (s.children.map label) = [] := by
      rw [Dress.children, empty, hollow.empty]
      rfl
    simp [firstChild?, children_eq_ok (h.record inside), none_there, bind, Except.bind, pure,
      Except.pure]
  have planted := planted_create h.ready.accounted (.text words)
  obtain ⟨d', run, worn⟩ :=
    (h.plant planted).append_solid hollow fun same => by cases same
  refine ⟨d', _, ?_, rfl, worn⟩
  unfold Handler.showText
  rw [bind_ok (ask_ok childless)]
  exact (bind_ok (change_run _ d)).trans run

/-- An empty element shows markup. -/
theorem setInner (h : Worn d w D C rest) (hollow : Hollow C s) (empty : D.content s.label = none)
    (markup : String) :
    ∃ d' us, Document.setInner s.label markup d = .ok () d' ∧ us.map shape = (parse markup).1 ∧
      Worn d' w (D.fill s.label us) C rest := by
  obtain ⟨n, host, container⟩ := h.host hollow
  obtain ⟨t, label, planted⟩ :=
    planted_plant (.node () .fragment (parse markup).1) none d h.ready.accounted
  have parsed := parseMarkup_clean h.ready.accounted markup (.inl h.ready.lenient) planted.trades.strict
  obtain ⟨f, data, us⟩ := t
  obtain ⟨rfl, forest⟩ : data = .fragment ∧ us.map shape = (parse markup).1 := planted.parts
  have solid : ∀ t ∈ us, t.data ≠ .fragment := fun t listed =>
    (fitAll_iff.1 ((fitAll_map_shape us).1 (forest ▸ fitAll_parse markup)) t listed).1
  have worn := h.plant planted
  obtain ⟨d₁, moved, filled⟩ := worn.append_fragment hollow solid
  obtain ⟨d', released, left⟩ := filled.release_beside
  refine ⟨d', us, ?_, forest, left⟩
  unfold Document.setInner
  rw [bind_ok (requireContainer_ok host container), bind_ok parsed, ← label,
    bind_ok (worn.discardChildren_hollow hollow empty)]
  exact (bind_ok moved).trans released

end Worn

/-! ## Handlers -/

/-- The standard handler of a built-in kind. -/
def RenderKind.handler : RenderKind → Handler
  | escaped => Handler.escaped
  | literal => Handler.literal
  | numeral => Handler.numeral
  | function => Handler.function
  | fragment => Handler.literal
  | custom _ => fun _ _ => pure ()

theorem Handler.function_some {value result : Value} (x : NodeId)
    (called : value.invoke? = some result) :
    Handler.function (.content x) value = Handler.escaped (.content x) result := by
  simp [Handler.function, called]

theorem Handler.function_none {value : Value} (x : NodeId) (called : value.invoke? = none) :
    Handler.function (.content x) value = throw (.notInvokable value.typeName) := by
  simp [Handler.function, called]

theorem Registry.get?_standard {kind : RenderKind} (builtIn : kind.isBuiltIn = true) :
    Registry.standard.get? kind.tag = some kind.handler := by
  cases kind with
  | custom tag => cases builtIn
  | escaped | literal | numeral | function | fragment => rfl

/-- Some targets have received what is listed, the others nothing more. -/
structure Dress.Gains (D E : Dress) (gains : List (Target × Filling)) : Prop where
  unmarked : E.unmarked = D.unmarked
  gained : ∀ g ∈ gains, E.received g.1 = g.2
  others : ∀ T, T ∉ gains.map Prod.fst → E.received T = D.received T

/-- The targets that a tree offers: its hollow elements, and the attributes of its elements
except markers. -/
inductive Offers (C : NodeTree NodeId) : Target → Prop where
  | content {s : NodeTree NodeId} (hollow : Hollow C s) : Offers C (.content s.label)
  | attr {q : Option NodeId} {s : NodeTree NodeId} {name : String} (inside : Within none C q s)
      (present : name ∈ s.data.attributes.map Prod.fst) (ordinary : name ≠ Marker.host) :
      Offers C (.attr s.label name)

namespace Worn

variable {d : Document} {w : View} {D : Dress} {C s : NodeTree NodeId}
  {rest : List (NodeTree NodeId)}

theorem gains_write (D : Dress) (id : NodeId) (name : String) (value : Value) :
    D.Gains (D.write id name value) [(.attr id name, { attributes := [(name, value)] })] where
  unmarked := rfl
  gained g mem := by
    rw [List.mem_singleton.1 mem]
    exact D.received_write_self id name value
  others T out := D.received_write_of_ne value (by simpa using out)

theorem gains_fill {id : NodeId} (empty : D.content id = none) (us : List (NodeTree NodeId)) :
    D.Gains (D.fill id us) [(.content id, { content := some (us.map shape) })] where
  unmarked := rfl
  gained g mem := by
    rw [List.mem_singleton.1 mem]
    exact Dress.received_fill_self empty us
  others T out := D.received_fill_of_ne us (by simpa using out)

/-- What an edit has put into an empty element is a gain of the element. -/
theorem edit_content {e : Edit Unit} {ts : List (NodeTree Unit)} (empty : D.content s.label = none)
    (edits : ∃ d' us, e d = .ok () d' ∧ us.map shape = ts ∧
      Worn d' w (D.fill s.label us) C rest) :
    ∃ d' E, Worn d' w E C rest ∧ D.Gains E [(.content s.label, { content := some ts })] ∧
      Writing.edit e d = .ok () d' := by
  obtain ⟨d', us, run, rfl, worn⟩ := edits
  exact ⟨d', _, worn, gains_fill empty us, Writing.edit_ok run⟩

/-- A target that has received nothing receives what its binding writes. Only a value that
cannot be called is refused. -/
theorem handle (h : Worn d w D C rest) {b : Binding} (builtIn : b.kind.isBuiltIn = true)
    {x : NodeId} (offers : Offers C (b.target x)) (empty : D.received (b.target x) = {})
    (value : Value) :
    ∃ d' E, Worn d' w E C rest ∧ D.Gains E [(b.target x, b.written value)] ∧
      (b.kind.handler (b.target x) value d = .ok () d' ∨
        b.kind.handler (b.target x) value d = .error (.notInvokable value.typeName) d') := by
  obtain ⟨kind, key, attr, block⟩ := b
  cases attr with
  | some name =>
      cases offers with
      | @attr q s _ inside present ordinary =>
          obtain ⟨d', run, worn⟩ :=
            h.setAttributeValue inside present ordinary (kind.attributeValue value)
          have edited := Writing.edit_ok run
          refine ⟨d', _, worn, gains_write D s.label name _, .inl ?_⟩
          cases kind with
          | custom tag => cases builtIn
          | escaped | literal | function | fragment => exact edited
          | numeral =>
              rw [RenderKind.attributeValue, ← Handler.numeralText_eq] at edited
              exact edited
  | none =>
      cases offers with
      | @content s hollow =>
          have blank := Dress.content_eq_none empty
          cases kind with
          | custom tag => cases builtIn
          | escaped =>
              obtain ⟨d', E, worn, gains, run⟩ :=
                edit_content blank (h.showText hollow blank value.text)
              exact ⟨d', E, worn, gains, .inl run⟩
          | literal | fragment =>
              obtain ⟨d', E, worn, gains, run⟩ :=
                edit_content blank (h.setInner hollow blank value.text)
              exact ⟨d', E, worn, gains, .inl run⟩
          | numeral =>
              obtain ⟨d', E, worn, gains, run⟩ :=
                edit_content blank (h.setInner hollow blank (Handler.numeralText value))
              rw [Handler.numeralText_eq] at gains
              exact ⟨d', E, worn, gains, .inl run⟩
          | function =>
              cases called : value.invoke? with
              | some result =>
                  obtain ⟨d', E, worn, gains, run⟩ :=
                    edit_content blank (h.showText hollow blank result.text)
                  refine ⟨d', E, worn, ?_, .inl ?_⟩
                  · rw [Binding.written, RenderKind.content?_function, called]
                    exact gains
                  · exact (congrFun (Handler.function_some s.label called) d).trans run
              | none =>
                  refine ⟨d, D, h, ⟨rfl, ?_, fun _ _ => rfl⟩, .inr ?_⟩
                  · simpa [Binding.written, RenderKind.content?_function, called] using empty
                  · exact congrFun (Handler.function_none s.label called) d

end Worn

/-! ## Bindings -/

/-- Writing into a tree so that it gains what is listed, if nothing was there before. -/
def Rendering.Fills (w : View) (C : NodeTree NodeId) (body : Rendering Unit)
    (gains : List (Target × Filling)) : Prop :=
  ∀ c D, Worn c.document w D C [] → (∀ g ∈ gains, D.received g.1 = {}) →
    ∃ c' E, body c = .ok () c' ∧ Worn c'.document w E C [] ∧ D.Gains E gains

namespace Rendering.Fills

variable {w : View} {C : NodeTree NodeId} {body : Rendering Unit} {gains more : List (Target × Filling)}

theorem nothing (h : ∀ g ∈ gains, g.2 = {}) : Fills w C (pure ()) gains := by
  intro c D worn empty
  refine ⟨c, D, rfl, worn, rfl, fun g mem => ?_, fun _ _ => rfl⟩
  rw [empty g mem, h g mem]

theorem congr (h : Fills w C body gains) (same : ∀ g, g ∈ gains ↔ g ∈ more) :
    Fills w C body more := by
  intro c D worn empty
  obtain ⟨c', E, run, worn', gained⟩ := h c D worn fun g mem => empty g ((same g).1 mem)
  refine ⟨c', E, run, worn', gained.unmarked, fun g mem => gained.gained g ((same g).2 mem),
    fun T out => gained.others T fun mem => ?_⟩
  obtain ⟨g, listed, rfl⟩ := List.mem_map.1 mem
  exact out (List.mem_map.2 ⟨g, (same g).1 listed, rfl⟩)

theorem seq {next : Rendering Unit} (h : Fills w C body gains) (k : Fills w C next more)
    (apart : ∀ T ∈ gains.map Prod.fst, T ∉ more.map Prod.fst) :
    Fills w C (body >>= fun _ => next) (gains ++ more) := by
  intro c D worn empty
  obtain ⟨c₁, D₁, run₁, worn₁, first⟩ := h c D worn fun g mem =>
    empty g (List.mem_append_left _ mem)
  have still : ∀ g ∈ more, D₁.received g.1 = {} := fun g mem => by
    rw [first.others g.1 fun listed => apart _ listed (List.mem_map.2 ⟨g, mem, rfl⟩)]
    exact empty g (List.mem_append_right _ mem)
  obtain ⟨c₂, D₂, run₂, worn₂, second⟩ := k c₁ D₁ worn₁ still
  refine ⟨c₂, D₂, by rw [bind_ok run₁, run₂], worn₂, second.unmarked.trans first.unmarked, ?_, ?_⟩
  · intro g mem
    rcases List.mem_append.1 mem with mem | mem
    · rw [second.others g.1 (apart _ (List.mem_map.2 ⟨g, mem, rfl⟩))]
      exact first.gained g mem
    · exact second.gained g mem
  · intro T out
    rw [List.map_append, List.mem_append, not_or] at out
    rw [second.others T out.2, first.others T out.1]

theorem forM {γ : Type} {step : γ → Rendering Unit} {out : γ → List (Target × Filling)}
    {xs : List γ} (h : ∀ x ∈ xs, Fills w C (step x) (out x))
    (distinct : ((xs.flatMap out).map Prod.fst).Nodup) :
    Fills w C (xs.forM step) (xs.flatMap out) := by
  induction xs with
  | nil => exact nothing (by simp)
  | cons x xs ih =>
      rw [List.flatMap_cons, List.map_append] at distinct
      obtain ⟨-, rest, apart⟩ := List.nodup_append.1 distinct
      show Fills w C (step x >>= fun _ => xs.forM step) _
      rw [List.flatMap_cons]
      exact (h x (by simp)).seq (ih (fun y mem => h y (by simp [mem])) rest) fun T first second =>
        apart T first T second rfl

end Rendering.Fills

/-- A binding is bound to a target that the tree offers, with the handler for its kind. -/
structure BoundBinding.Fits (b : BoundBinding) (C : NodeTree NodeId) : Prop where
  target : ∃ x, b.target = b.binding.target x
  handler : b.handler = b.binding.kind.handler
  builtIn : b.binding.kind.isBuiltIn = true
  offers : Offers C b.target

namespace BoundBinding

variable {w : View} {C : NodeTree NodeId}

theorem fills_apply {b : BoundBinding} (fits : b.Fits C) (value : Value) :
    Rendering.Fills w C (b.apply value) [(b.target, b.binding.written value)] := by
  intro c D worn empty
  obtain ⟨binding, target, handler⟩ := b
  obtain ⟨⟨x, place⟩, own, builtIn, offers⟩ := fits
  dsimp only at place own builtIn offers empty
  subst place own
  obtain ⟨d', E, worn', gains, run⟩ :=
    worn.handle builtIn offers (empty _ (List.mem_singleton.2 rfl)) value
  rcases run with run | run
  · exact ⟨_, E, apply_ok (b := ⟨binding, binding.target x, binding.kind.handler⟩) run, worn', gains⟩
  · exact ⟨_, E, apply_refused (b := ⟨binding, binding.target x, binding.kind.handler⟩) run, worn',
      gains⟩

end BoundBinding

/-! ## All bindings of a copy -/

theorem Instance.fills_bindings {w : View} {C : NodeTree NodeId} {i : Instance}
    (fits : ∀ b ∈ i.bindings, b.Fits C) (distinct : (i.bindings.list.map (·.target)).Nodup)
    (scope : Scope) :
    Rendering.Fills w C (Rendering.means.writeBindings i scope)
      (i.bindings.list.map fun b => (b.target, b.binding.filling scope.meaning)) := by
  have targets : ∀ entry ∈ i.bindings.entries, (entry.2.map (·.target)).Nodup := by
    rw [BindingTable.list, List.map_flatMap] at distinct
    exact (List.nodup_flatMap.1 distinct).1
  rw [BindingTable.list, List.map_flatMap]
  refine Rendering.Fills.forM (fun entry mem => ?_) ?_
  · show Rendering.Fills w C (Rendering.means.writeKey scope entry.1 entry.2) _
    have listed : ∀ b ∈ entry.2, b ∈ i.bindings := fun b own => List.mem_flatMap.2 ⟨entry, mem, own⟩
    have keys := (i.bindings.filed entry mem).2
    have reached := scope.resolve?_eq entry.1
    rw [Means.writeKey]
    cases value : scope.resolve? entry.1 with
    | none =>
        rw [value] at reached
        refine .nothing fun g given => ?_
        obtain ⟨b, own, rfl⟩ := List.mem_map.1 given
        simp [Binding.filling, keys b own, ← reached]
    | some v =>
        rw [value] at reached
        have filled : entry.2.map (fun b => (b.target, b.binding.filling scope.meaning)) =
            entry.2.flatMap fun b => [(b.target, b.binding.written v)] := by
          rw [← List.map_eq_flatMap]
          refine List.map_congr_left fun b own => ?_
          simp [Binding.filling, keys b own, ← reached]
        rw [filled]
        refine Rendering.Fills.forM (fun b own => BoundBinding.fills_apply (fits b (listed b own)) v) ?_
        rw [← List.map_eq_flatMap, List.map_map]
        exact targets entry mem
  · rw [← List.map_flatMap, List.map_map]
    exact distinct

end Stencil
