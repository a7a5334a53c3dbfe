import Stencil.Proofs.Document.Operation
import Stencil.Proofs.Document.Tending

/-! # Refused operations

In a sound document an operation that is refused has changed nothing. It is not so in two
places: a strict document keeps the nodes of the flawed markup that it refuses, and a fragment
that is to be put before one of its own children has lost them when the refusal comes.
-/

namespace Stencil

open Markup NodeTree

namespace Edit

variable {α β : Type} {d d' : Document} {e : Edit α}

/-- A refusal of the edit leaves the document as it is. -/
def AtomicIn (d : Document) (e : Edit α) : Prop := ∀ x d', e d = .error x d' → d' = d

namespace AtomicIn

theorem of_ok {a : α} (run : e d = .ok a d') : AtomicIn d e := by
  intro x d₁ refused
  rw [run] at refused
  cases refused

theorem of_error {x : DomError} (run : e d = .error x d) : AtomicIn d e := by
  intro y d₁ refused
  rw [run] at refused
  cases refused
  rfl

theorem pure (a : α) : AtomicIn d (pure a) := of_ok (pure_run a d)

/-- A question changes nothing, and what follows it may be refused. -/
theorem ask {question : Document → Except DomError α} {f : α → Edit β}
    (next : ∀ a, question d = .ok a → AtomicIn d (f a)) :
    AtomicIn d (Edit.ask question >>= f) := by
  cases asked : question d with
  | error x => exact of_error (bind_error (ask_error asked))
  | ok a =>
      intro x d' refused
      rw [bind_ok (ask_ok asked)] at refused
      exact next a asked x d' refused

theorem discard (h : AtomicIn d e) : AtomicIn d (discard e : Edit PUnit) := by
  cases run : e d with
  | ok a d' => exact of_ok (Document.discard_ok run)
  | error x d' =>
      cases h x d' run
      exact of_error (Document.discard_error run)

end AtomicIn

end Edit

namespace Document

open Edit View

variable {d d' : Document} {p c g id : NodeId} {n m : Node}

/-! ## Single nodes -/

theorem atomicIn_modifyNode (id : NodeId) (f : Node → Node) : AtomicIn d (modifyNode id f) := by
  cases node : d.view id with
  | none => exact .of_error (modifyNode_error f node)
  | some n => exact .of_ok (modifyNode_ok f node)

theorem atomicIn_setAttributeValue (id : NodeId) (name : String) (value : Value) :
    AtomicIn d (setAttributeValue id name value) :=
  .ask fun _ _ => atomicIn_modifyNode id _

theorem atomicIn_removeAttribute (id : NodeId) (name : String) :
    AtomicIn d (removeAttribute id name) :=
  .ask fun _ _ => atomicIn_modifyNode id _

/-- The nodes of markup are planted before its flaws are looked at. -/
theorem parseMarkup_run (h : d.Accounted) (markup : String) :
    (∃ root d', parseMarkup markup d = .ok root d') ∧
        (d.strict = false ∨ (parse markup).2 = []) ∨
      d.strict = true ∧ (parse markup).2 ≠ [] ∧ ∃ x, parseMarkup markup d =
        .error x (d.plant none (.node () .fragment (parse markup).1)).2 := by
  have strict := ((lasting_settings d.name d.strict).plant
    (.node () .fragment (parse markup).1) none d ⟨rfl, rfl⟩).2
  unfold parseMarkup
  rw [bind_ok (plantMarkup_run h markup)]
  dsimp only
  rw [bind_ok (get_run _), strict]
  cases d.strict <;> cases (parse markup).2 <;> simp [bind, EStateM.bind]

theorem atomicIn_parseMarkup (h : d.Accounted) (markup : String)
    (clean : d.strict = false ∨ (parse markup).2 = []) : AtomicIn d (parseMarkup markup) := by
  rcases parseMarkup_run h markup with ⟨⟨root, d', run⟩, -⟩ | ⟨strict, flawed, -⟩
  · exact .of_ok run
  · rcases clean with lenient | flawless
    · rw [strict] at lenient
      cases lenient
    · exact (flawed flawless).elim

/-- A strict document has the nodes of the markup that it has refused. -/
theorem parseMarkup_refused (h : d.Accounted) {markup : String} (strict : d.strict = true)
    (flawed : (parse markup).2 ≠ []) :
    ∃ x d' F, parseMarkup markup d = .error x d' ∧
      Planted d d' none (.node () .fragment (parse markup).1) F := by
  rcases parseMarkup_run h markup with ⟨-, lenient | flawless⟩ | ⟨-, -, x, run⟩
  · rw [strict] at lenient
    cases lenient
  · exact (flawed flawless).elim
  · obtain ⟨F, -, planted⟩ := planted_plant (.node () .fragment (parse markup).1) none d h
    exact ⟨x, _, F, run, planted⟩

/-! ## Moving nodes -/

theorem atomicIn_append (h : d.Sound) (p c : NodeId) : AtomicIn d (append p c) := by
  rcases append_cases h.forest.linked p c with ⟨e, run⟩ | ⟨m, n, d', -, -, -, -, run, -⟩
  · exact .of_error run
  · exact .of_ok run

theorem atomicIn_insertBefore (h : d.Sound) {p c r : NodeId}
    (apart : d.Inserts p c r → ∀ n, d.view c = some n → n.data = .fragment → c ≠ p) :
    AtomicIn d (insertBefore p c r) := by
  rcases insertBefore_cases h.forest.linked p c r apart with ⟨e, run⟩ | ⟨-, run⟩ |
    ⟨m, n, k, d', -, -, -, -, -, -, -, run, -⟩
  · exact .of_error run
  · exact .of_ok run
  · exact .of_ok run

theorem atomicIn_remove (h : d.Sound) (p c : NodeId) : AtomicIn d (remove p c) := by
  by_cases there : ∃ m, d.view p = some m ∧ c ∈ m.children
  · obtain ⟨m, host, mem⟩ := there
    obtain ⟨d', run, -⟩ := remove_ok h.forest.linked host mem
    exact .of_ok run
  · obtain ⟨e, run⟩ := remove_error fun m host mem => there ⟨m, host, mem⟩
    exact .of_error run

/-- A fragment that is to be put before one of its own children has given its children away when
the place of that child is looked up again. -/
theorem insertBefore_self (h : d.Sound) (node : d.view p = some n) (fragment : n.data = .fragment)
    (mem : c ∈ n.children) :
    ∃ d', insertBefore p p c d = .error (.notAChild p c) d' ∧
      d'.view p = some { n with children := [] } := by
  have live : ∀ x ∈ n.children, d.view x ≠ none := by
    intro x mem
    obtain ⟨k, child, -⟩ := h.forest.child node mem
    simp [child]
  have other : ∀ x ∈ n.children, p ≠ x := by
    rintro x mem rfl
    obtain ⟨k, child, parent⟩ := h.forest.child node mem
    exact (h.forest.rooted child).not_above_parent child parent .self
  have container : n.data.isContainer = true := by rw [fragment]; rfl
  obtain ⟨d', taken, view⟩ := takeFor_fragment node container node fragment live
  have emptied : d'.view p = some { n with children := [] } := by
    rw [view, adopt_apply (alter_self _ node), if_neg fun mem => other p mem rfl]
  have lost : place p c d' = .error (.notAChild p c) d' := by
    unfold place
    rw [bind_ok (ask_ok (children_eq_ok emptied))]
    rfl
  refine ⟨d', ?_, emptied⟩
  simp only [insertBefore, other c mem, if_false]
  rw [bind_ok (discard_ok (place_ok node mem)), bind_ok taken, bind_error lost]

/-- When the new child has come before the old one, the old one is there to be taken out, even
if the links have become circular. -/
theorem atomicIn_replace (h : d.Sound) {p new old : NodeId}
    (apart : d.Inserts p new old → ∀ n, d.view new = some n → n.data = .fragment → new ≠ p) :
    AtomicIn d (replace p new old) := by
  unfold replace
  split
  · exact .pure _
  · rename_i other
    rcases insertBefore_cases h.forest.linked p new old apart with ⟨e, run⟩ | ⟨same, -⟩ |
      ⟨m, n, k, d₁, -, host, -, -, -, mem, out, run, view, -⟩
    · exact .of_error (bind_error run)
    · exact (other same).elim
    · obtain ⟨l, child, -⟩ := h.forest.child host mem
      obtain ⟨m', host', kids⟩ := moved_host (c := new) (m := n) (k := k) host
      obtain ⟨l', child', -⟩ := moved_apply (p := p) (c := new) (m := n) (k := k) child
      rw [← view] at host' child'
      have listed : old ∈ m'.children := by simp [kids, mem_splice, mem, out]
      obtain ⟨d', removed, -⟩ := remove_listed host' listed child'
      exact .of_ok ((bind_ok run).trans removed)

/-! ## Giving nodes up -/

theorem atomicIn_release (h : d.Sound) (id : NodeId) : AtomicIn d (release id) := by
  cases node : d.view id with
  | none => exact .of_error (release_error node)
  | some n =>
      obtain ⟨d', run, -⟩ := release_ok h.forest node
      exact .of_ok run

/-- The children of every node can be given up. -/
theorem exists_discardChildren (h : d.Sound) (host : d.view g = some n) :
    ∃ d', discardChildren g d = .ok () d' ∧ d'.Sound ∧
      d'.view g = some { n with children := [] } ∧
      ∀ x, ¬d.view.Above g x → d'.view x = d.view x := by
  obtain ⟨t, -, rfl, stands⟩ := exists_tree h.forest host
  obtain ⟨data, parent, children⟩ := n
  have top := stands.top
  rw [host] at top
  cases top
  obtain ⟨d', run, sound, host', frame⟩ := discardChildren_ok h host stands.children
  refine ⟨d', run, sound, host', fun x out => frame x (fun same => out (same ▸ .self)) fun mem => ?_⟩
  cases t
  exact out (stands.above (List.mem_cons_of_mem _ mem))

theorem atomicIn_discardChildren (h : d.Sound) (id : NodeId) : AtomicIn d (discardChildren id) := by
  cases node : d.view id with
  | none => exact .of_error (bind_error (ask_error (children_eq_error node)))
  | some n =>
      obtain ⟨d', run, -⟩ := exists_discardChildren h node
      exact .of_ok run

theorem atomicIn_clear (h : d.Sound) (id : NodeId) : AtomicIn d (clear id) := by
  cases node : d.view id with
  | none => exact .of_error (bind_error (ask_error (children_eq_error node)))
  | some n =>
      obtain ⟨d', run, -⟩ := clear_ok h node
      exact .of_ok run

/-- Children that go where they are not above are refused at once or not at all. -/
theorem atomicIn_moveChildren (h : d.Sound) {source target : NodeId}
    (apart : ¬d.view.Above source target) : AtomicIn d (moveChildren source target) := by
  refine .ask fun kids asked => ?_
  cases holder : d.view source with
  | none =>
      rw [children_eq_error holder] at asked
      cases asked
  | some m =>
      rw [children_eq_ok holder] at asked
      cases asked
      have below : ∀ c ∈ m.children, ¬d.view.Above c target := by
        intro c mem above
        obtain ⟨k, child, parent⟩ := h.forest.child holder mem
        exact apart ((Above.step child parent .self).trans above)
      by_cases host : d.Holds target
      · obtain ⟨n, host, container⟩ := host
        have other : target ≠ source := by
          rintro rfl
          exact apart .self
        obtain ⟨d', run, -⟩ := moveChildren_ok h host container holder other below
        unfold moveChildren at run
        rw [bind_ok (ask_ok (children_eq_ok holder))] at run
        exact .of_ok run
      · obtain ⟨e, refused⟩ := requireContainer_refused host
        cases m.children with
        | nil => exact .of_ok (loop_nil _ d)
        | cons c kids =>
            refine .of_error (x := e) ?_
            rw [List.forIn_cons]
            exact bind_error (bind_error (bind_error (bind_error (bind_error refused))))

/-! ## Content -/

/-- A new text can be put behind the children of every node that holds children. -/
theorem exists_appendText (h : d.Sound) (host : d.view g = some n)
    (container : n.data.isContainer = true) (words : String) :
    ∃ d', (do append g (← createText words) : Edit Unit) d = .ok () d' := by
  obtain ⟨c, d₁, created, sound, fresh, node, frame⟩ := createText_ok h words
  have other : g ≠ c := by
    rintro rfl
    rw [fresh] at host
    cases host
  obtain ⟨d', run, -⟩ := append_moved sound.forest.linked ((frame g other).trans host) container node
    fun _ => sound.forest.not_above_of_childless node rfl other.symm
  exact ⟨d', (bind_ok created).trans run⟩

theorem atomicIn_setText (h : d.Sound) (id : NodeId) (value : String) :
    AtomicIn d (setText id value) := by
  refine .ask fun data asked => ?_
  cases node : d.view id with
  | none =>
      rw [data_eq_error node] at asked
      cases asked
  | some n =>
      rw [data_eq_ok node] at asked
      cases asked
      have whole (container : n.data.isContainer = true) : AtomicIn d (do
          discardChildren id
          unless value.isEmpty do
            append id (← createText value)) := by
        obtain ⟨d₁, emptied, sound, host, -⟩ := exists_discardChildren h node
        cases empty : value.isEmpty with
        | true => exact .of_ok (bind_ok emptied)
        | false =>
            obtain ⟨d', run⟩ := exists_appendText sound host container value
            exact .of_ok ((bind_ok emptied).trans run)
      obtain ⟨data, parent, children⟩ := n
      cases data with
      | text | comment => exact atomicIn_modifyNode id _
      | doctype => exact .of_error (throw_run _ _)
      | element | fragment => exact whole rfl

/-- Markup that is read takes the place of the children of every node that holds children. -/
theorem exists_setInner (h : d.Sound) (host : d.view g = some n)
    (container : n.data.isContainer = true) {markup : String} {fragment : NodeId} {d₁ : Document}
    (parsed : parseMarkup markup d = .ok fragment d₁) :
    ∃ d', setInner g markup d = .ok () d' := by
  have sound₁ := keeps_parseMarkup markup d h
  rw [after_ok parsed] at sound₁
  obtain ⟨F, label, planted⟩ :=
    planted_plant (.node () .fragment (parse markup).1) none d h.accounted
  rw [parseMarkup_ok h.accounted parsed] at label planted
  subst label
  have host₁ := planted.trades.kept host (by simp)
  have apart₁ := planted.trades.not_above h.forest (label_mem_labels F) host
  have emptied : Keeps (fun d => d.Sound ∧ ¬d.view.Above F.label g) (discardChildren g) :=
    (Keeps.ask _).bind fun _ => .loop fun c _ => keeps_apart_release F.label g c
  have alone : ¬d₁.view.Above g F.label := by
    intro above
    have same := above.eq_of_top planted.stands.top rfl
    rw [same, planted.trades.fresh _ (label_mem_labels F) (by simp)] at host
    cases host
  obtain ⟨d₂, discarded, sound₂, host₂, frame₂⟩ := exists_discardChildren sound₁ host₁
  have apart₂ : ¬d₂.view.Above F.label g := by
    have kept := emptied d₁ ⟨sound₁, apart₁⟩
    rw [after_ok discarded] at kept
    exact kept.2
  have top₂ := (frame₂ F.label alone).trans planted.stands.top
  obtain ⟨d₃, moved, view₃⟩ := append_moved sound₂.forest.linked host₂ container top₂ fun _ => apart₂
  have sound₃ := sound₂.append (p := g) (c := F.label) fun _ entangled => apart₂ entangled.2
  rw [after_ok moved] at sound₃
  obtain ⟨k, top₃, -⟩ := moved_apply top₂
  rw [← view₃] at top₃
  obtain ⟨d', released, -⟩ := release_ok sound₃.forest top₃
  refine ⟨d', ?_⟩
  unfold setInner
  rw [bind_ok (requireContainer_ok host container), bind_ok parsed, bind_ok discarded, bind_ok moved]
  exact released

theorem atomicIn_setInner (h : d.Sound) (id : NodeId) (markup : String)
    (clean : d.Holds id → d.strict = false ∨ (parse markup).2 = []) :
    AtomicIn d (setInner id markup) := by
  by_cases holds : d.Holds id
  · obtain ⟨n, host, container⟩ := holds
    cases parsed : parseMarkup markup d with
    | ok fragment d₁ =>
        obtain ⟨d', run⟩ := exists_setInner h host container parsed
        exact .of_ok run
    | error x d₁ =>
        have same := atomicIn_parseMarkup h.accounted markup (clean ⟨n, host, container⟩) x d₁ parsed
        subst same
        refine .of_error (x := x) ?_
        unfold setInner
        rw [bind_ok (requireContainer_ok host container), bind_error parsed]
  · obtain ⟨e, refused⟩ := requireContainer_refused holds
    exact .of_error (bind_error refused)

/-- In a sound document a copy is made as a whole or not at all. -/
theorem atomicIn_copyTree (h : d.Sound) (id : NodeId) : AtomicIn d (copyTree id) := by
  cases node : d.view id with
  | none => exact .of_error (copyTree_refused node)
  | some n =>
      obtain ⟨t, -, rfl, stands⟩ := exists_tree h.forest node
      exact .of_ok (copyTree_eq h.accounted stands (h.forest.nodup_labels t _ stands))

end Document

namespace Operation

open Edit Document View

variable {d d' : Document}

/-- What an operation does. -/
def edit : Operation → Edit Unit
  | createElement name => discard (Document.createElement name)
  | createText value => discard (Document.createText value)
  | createComment value => discard (change fun d => d.create (.comment value))
  | createDoctype value => discard (change fun d => d.create (.doctype value))
  | createFragment => discard (change fun d => d.create .fragment)
  | plantMarkup markup => discard (Document.plantMarkup markup)
  | parseMarkup markup => discard (Document.parseMarkup markup)
  | setAttribute id name value => Document.setAttribute id name value
  | setAttributeValue id name value => Document.setAttributeValue id name value
  | removeAttribute id name => Document.removeAttribute id name
  | append parent child => Document.append parent child
  | insertBefore parent child reference => Document.insertBefore parent child reference
  | remove parent child => Document.remove parent child
  | replace parent new old => Document.replace parent new old
  | setText id value => Document.setText id value
  | setInner id markup => Document.setInner id markup
  | release id => Document.release id
  | copy id => discard (Document.copy id)
  | copyTree id => discard (Document.copyTree id)
  | clear id => Document.clear id
  | discardChildren id => Document.discardChildren id
  | moveChildren source target => Document.moveChildren source target

theorem after_discard {α : Type} (e : Edit α) (d : Document) :
    (Functor.discard e : Edit PUnit).after d = e.after d := by
  cases run : e d with
  | ok a d' => rw [after_ok run, after_ok (discard_ok run)]
  | error x d' => rw [after_error run, after_error (discard_error run)]

theorem after_edit (op : Operation) (d : Document) : op.edit.after d = op.perform d := by
  cases op <;> first | rfl | exact after_discard _ d

/-- Whether an operation can be refused after it has changed something: a strict document reads
flawed markup, a fragment is put before one of its own children, or the children of a node are
moved into its own tree. -/
def Slips (d : Document) : Operation → Prop
  | parseMarkup markup => d.strict = true ∧ (Markup.parse markup).2 ≠ []
  | setInner id markup => d.Holds id ∧ d.strict = true ∧ (Markup.parse markup).2 ≠ []
  | insertBefore parent child reference =>
      d.Inserts parent child reference ∧ child = parent ∧ d.data child = .ok .fragment
  | replace parent new old =>
      d.Inserts parent new old ∧ new = parent ∧ d.data new = .ok .fragment
  | moveChildren source target => d.view.Above source target
  | _ => False

/-- An operation that is refused has changed nothing, unless it slips. -/
theorem atomicIn_edit (h : d.Sound) (op : Operation) (clean : ¬op.Slips d) :
    AtomicIn d op.edit := by
  have made (data : NodeData) : AtomicIn d (change fun d => d.create data) :=
    .of_ok (change_run _ d)
  have flawless {markup : String} (clean : ¬(d.strict = true ∧ (Markup.parse markup).2 ≠ [])) :
      d.strict = false ∨ (Markup.parse markup).2 = [] := by
    simpa [Classical.or_iff_not_imp_left] using clean
  cases op with
  | createElement name => exact (made _).discard
  | createText value => exact (made _).discard
  | createComment value => exact (made _).discard
  | createDoctype value => exact (made _).discard
  | createFragment => exact (made _).discard
  | plantMarkup markup => exact (AtomicIn.of_ok (plantMarkup_run h.accounted markup)).discard
  | parseMarkup markup => exact (atomicIn_parseMarkup h.accounted markup (flawless clean)).discard
  | setAttribute id name value => exact atomicIn_setAttributeValue id name _
  | setAttributeValue id name value => exact atomicIn_setAttributeValue id name value
  | removeAttribute id name => exact atomicIn_removeAttribute id name
  | append parent child => exact atomicIn_append h parent child
  | insertBefore parent child reference =>
      exact atomicIn_insertBefore h fun inserts n node fragment same =>
        clean ⟨inserts, same, (data_eq_ok node).trans (congrArg _ fragment)⟩
  | remove parent child => exact atomicIn_remove h parent child
  | replace parent new old =>
      exact atomicIn_replace h fun inserts n node fragment same =>
        clean ⟨inserts, same, (data_eq_ok node).trans (congrArg _ fragment)⟩
  | setText id value => exact atomicIn_setText h id value
  | setInner id markup =>
      exact atomicIn_setInner h id markup fun holds => flawless fun flawed => clean ⟨holds, flawed⟩
  | release id => exact atomicIn_release h id
  | copy id => exact (AtomicIn.ask fun _ _ => made _).discard
  | copyTree id => exact (atomicIn_copyTree h id).discard
  | clear id => exact atomicIn_clear h id
  | discardChildren id => exact atomicIn_discardChildren h id
  | moveChildren source target => exact atomicIn_moveChildren h clean

/-- Trees that have been planted by a refused reading were not there before. -/
private theorem changed_of_planted {t : NodeTree Unit} {F : NodeTree NodeId}
    (planted : Planted d d' none t F) : d' ≠ d := by
  rintro rfl
  have fresh := planted.trades.fresh F.label (label_mem_labels F) (by simp)
  rw [planted.stands.top] at fresh
  cases fresh

private theorem changed_of_emptied {p c : NodeId} {n : Node} (node : d.view p = some n)
    (mem : c ∈ n.children) (emptied : d'.view p = some { n with children := [] }) : d' ≠ d := by
  rintro rfl
  rw [node] at emptied
  have none_left : n.children = [] := congrArg Node.children (Option.some.inj emptied)
  simp [none_left] at mem

/-- An operation that slips is refused and has changed something. -/
theorem refused_of_slips (h : d.Sound) {op : Operation} (slips : op.Slips d)
    (other : ∀ source target, op ≠ .moveChildren source target) :
    ∃ x d', op.edit d = .error x d' ∧ d' ≠ d := by
  have inserted {p c r : NodeId} (slips : d.Inserts p c r ∧ c = p ∧ d.data c = .ok .fragment) :
      ∃ x d', Document.insertBefore p c r d = .error x d' ∧ d' ≠ d := by
    obtain ⟨⟨-, n, node, mem⟩, rfl, fragment⟩ := slips
    rw [data_eq_ok node] at fragment
    obtain ⟨d', run, emptied⟩ := insertBefore_self h node (Except.ok.inj fragment) mem
    exact ⟨_, d', run, changed_of_emptied node mem emptied⟩
  cases op with
  | parseMarkup markup =>
      obtain ⟨x, d', F, run, planted⟩ := parseMarkup_refused h.accounted slips.1 slips.2
      exact ⟨x, d', discard_error run, changed_of_planted planted⟩
  | setInner id markup =>
      obtain ⟨⟨n, host, container⟩, strict, flawed⟩ := slips
      obtain ⟨x, d', F, run, planted⟩ := parseMarkup_refused h.accounted strict flawed
      refine ⟨x, d', ?_, changed_of_planted planted⟩
      exact (bind_ok (requireContainer_ok host container)).trans (bind_error run)
  | insertBefore parent child reference => exact inserted slips
  | replace parent new old =>
      obtain ⟨x, d', run, changed⟩ := inserted slips
      refine ⟨x, d', ?_, changed⟩
      simp only [edit, Document.replace, slips.1.1, if_false]
      exact bind_error run
  | moveChildren source target => exact (other source target rfl).elim
  | _ => exact slips.elim

/-- Exactly the operations that slip are refused after they have changed something. -/
theorem refused_changed_iff (h : d.Sound) {op : Operation}
    (other : ∀ source target, op ≠ .moveChildren source target) :
    (∃ x d', op.edit d = .error x d' ∧ d' ≠ d) ↔ op.Slips d := by
  refine ⟨?_, fun slips => refused_of_slips h slips other⟩
  rintro ⟨x, d', refused, changed⟩
  exact Classical.byContradiction fun clean => changed (atomicIn_edit h op clean x d' refused)

/-- After any run of operations that are not entangled, an operation that is refused and does not
slip leaves the document as the run has left it. -/
theorem perform_of_refused (name : String) (strict : Bool) (ops : List Operation)
    (apart : Untangled { name := name, strict := strict } ops) (op : Operation)
    (clean : ¬op.Slips (run { name := name, strict := strict } ops)) {x : DomError}
    (refused : op.edit (run { name := name, strict := strict } ops) = .error x d') :
    op.perform (run { name := name, strict := strict } ops) =
      run { name := name, strict := strict } ops := by
  have sound := sound_run (sound_empty name strict) ops apart
  rw [← after_edit, after_error refused]
  exact atomicIn_edit sound op clean x d' refused

end Operation

end Stencil
