import Stencil.Proofs.Document.Building
import Stencil.Proofs.Document.Lasting
import Stencil.Proofs.Markup.Growth

/-! # Sound documents

A document is sound when its slots are accounted for and its links form a forest. Every
edit keeps that, also when it is refused; only a fragment must not be put into itself or
below itself.
-/

namespace Stencil

open Markup NodeTree

namespace Document

open Edit View

/-- The slots are accounted for and the links form a forest. -/
structure Sound (d : Document) : Prop where
  accounted : d.Accounted
  forest : d.view.Forest

theorem sound_empty (name : String) (strict : Bool) :
    Sound { name := name, strict := strict } where
  accounted := accounted_empty name strict
  forest := by
    have nothing : ({ name := name, strict := strict } : Document).view = fun _ => none := by
      funext x
      simp [view, node?]
    rw [nothing]
    exact forest_empty

variable {d : Document}

/-! ## New nodes -/

theorem sound_plant {ι : Type} (h : d.Sound) {t : NodeTree ι} (fits : t.Fits) :
    (d.plant none t).2.Sound := by
  obtain ⟨s, -, planted⟩ := planted_plant t none d h.accounted
  refine ⟨planted.trades.accounted, h.forest.plant planted.stands planted.nodup ?_ ?_ ?_⟩
  · rw [← fits_shape, planted.shape, fits_shape]
    exact fits
  · exact fun x mem => planted.trades.fresh x mem (by simp)
  · exact fun x out => planted.trades.frame x (by simp) out

theorem sound_create (h : d.Sound) {data : NodeData} (distinct : AttributesDistinct data) :
    (d.create data).2.Sound := by
  obtain ⟨fresh, view, accounted⟩ := h.accounted.allocate { data, parent := none, children := [] }
  have stands : (d.create data).2.view.Stands none (.node (d.create data).1 data []) :=
    ⟨by rw [create, view]; exact put_self .., trivial⟩
  refine ⟨accounted, h.forest.plant stands (by simp)
    ⟨distinct, fun some_child => absurd rfl some_child, trivial⟩ ?_ ?_⟩
  · simpa [create] using fresh
  · intro x out
    rw [create, view, put_of_ne _ _ (by simpa [create] using out)]

theorem keeps_create {data : NodeData} (distinct : AttributesDistinct data) :
    Keeps Sound (change fun d => d.create data) :=
  Keeps.change fun _ h => sound_create h distinct

theorem keeps_plantMarkup (markup : String) : Keeps Sound (plantMarkup markup) := by
  intro d h
  rw [after_ok (plantMarkup_run h.accounted markup)]
  exact sound_plant h ⟨by simp [AttributesDistinct, NodeData.attributes], fun _ => rfl,
    fitAll_parse markup⟩

theorem keeps_parseMarkup (markup : String) : Keeps Sound (parseMarkup markup) := by
  unfold parseMarkup
  exact (keeps_plantMarkup markup).bind fun _ => Keeps.read.bind fun _ =>
    .ite (fun _ => (Keeps.throw _).bind fun _ => .pure _) fun _ => .pure _

theorem keeps_copy (id : NodeId) : Keeps Sound (copy id) := by
  intro d h
  cases node : d.view id with
  | none =>
      unfold copy
      rwa [after_bind_error (ask_error (data_eq_error node))]
  | some n =>
      unfold copy
      rw [after_bind_ok (ask_ok (data_eq_ok node))]
      exact sound_create h (h.forest.attributes node)

/-! ## Attributes and values -/

/-- A change of a node's data that its links allow. -/
theorem sound_redata (h : d.Sound) {id : NodeId} {n : Node} (data : NodeData)
    (node : d.view id = some n) (container : data.isContainer = n.data.isContainer)
    (fragment : data = .fragment → n.data = .fragment) (distinct : AttributesDistinct data)
    {f : Node → Node} (hf : f n = { n with data }) : ((modifyNode id f).after d).Sound := by
  rw [after_ok (modifyNode_ok f node)]
  refine ⟨h.accounted.modify id f, ?_⟩
  rw [view_modify, alter_eq_put f node, hf]
  exact h.forest.redata node container fragment distinct

theorem keys_putField (key : String) (value : Value) (entries : List (String × Value)) :
    (Value.putField key value entries).map Prod.fst =
      if key ∈ entries.map Prod.fst then entries.map Prod.fst
      else entries.map Prod.fst ++ [key] := by
  induction entries with
  | nil => simp [Value.putField]
  | cons entry entries ih =>
      obtain ⟨k, v⟩ := entry
      by_cases same : k = key
      · simp [Value.putField, same]
      · simp only [Value.putField, same, if_false, List.map_cons, ih, List.mem_cons,
          Ne.symm same, false_or]
        split <;> simp

theorem lookup_putField (name key : String) (value : Value) (entries : List (String × Value)) :
    (Value.putField key value entries).lookup name =
      if name = key then some value else entries.lookup name := by
  induction entries with
  | nil =>
      by_cases same : name = key
      · simp [Value.putField, same]
      · simp [Value.putField, List.lookup_cons, beq_false_of_ne same, same]
  | cons entry entries ih =>
      obtain ⟨k, v⟩ := entry
      by_cases first : name = k
      · subst first
        by_cases here : name = key <;> simp [Value.putField, here]
      · by_cases here : k = key
        · subst here
          simp [Value.putField, List.lookup_cons, beq_false_of_ne first, first]
        · simp [Value.putField, List.lookup_cons, beq_false_of_ne first, here, ih]

theorem nodup_putField {key : String} {value : Value} {entries : List (String × Value)}
    (h : (entries.map Prod.fst).Nodup) : ((Value.putField key value entries).map Prod.fst).Nodup := by
  rw [keys_putField]
  split
  · exact h
  · rename_i new
    refine List.nodup_append.2 ⟨h, by simp, ?_⟩
    rintro a ha b hb rfl
    exact new (List.mem_singleton.1 hb ▸ ha)

/-- An edit of the attributes of an element, if they are still distinct afterwards. -/
theorem keeps_attributes (id : NodeId)
    {f : List (String × Value) → List (String × Value)}
    (distinct : ∀ entries, (entries.map Prod.fst).Nodup → ((f entries).map Prod.fst).Nodup) :
    Keeps Sound (do
      let entries ← ask (·.attributes id)
      modifyNode id fun n =>
        match n.data with
        | .element tag _ => { n with data := .element tag (f entries) }
        | _ => n) := by
  intro d h
  cases node : d.view id with
  | none =>
      have unknown : d.attributes id = .error (.unknownNode id) := by
        simp [attributes, data_eq_error node, bind, Except.bind]
      rwa [after_bind_error (ask_error unknown)]
  | some n =>
      obtain ⟨data, parent, children⟩ := n
      cases data with
      | element tag entries =>
          have known : d.attributes id = .ok entries := by
            simp [attributes, data_eq_ok node, bind, Except.bind, pure, Except.pure]
          rw [after_bind_ok (ask_ok known)]
          exact sound_redata h (.element tag (f entries)) node rfl nofun
            (distinct entries (h.forest.attributes node)) rfl
      | text | comment | fragment | doctype =>
          have other : d.attributes id = .error (.notAnElement id) := by
            simp [attributes, data_eq_ok node, bind, Except.bind, throw, throwThe,
              MonadExceptOf.throw]
          rwa [after_bind_error (ask_error other)]

theorem keeps_setAttributeValue (id : NodeId) (name : String) (value : Value) :
    Keeps Sound (setAttributeValue id name value) :=
  keeps_attributes id fun _ => nodup_putField

theorem keeps_removeAttribute (id : NodeId) (name : String) :
    Keeps Sound (removeAttribute id name) :=
  keeps_attributes id fun _ nodup => nodup.sublist (List.Sublist.map _ List.filter_sublist)

/-! ## Moving nodes -/

/-- A fragment is the node or lies above it. -/
def Entangled (d : Document) (p c : NodeId) : Prop :=
  (∃ n, d.view c = some n ∧ n.data = .fragment) ∧ d.view.Above c p

/-- Whether an insertion behind all children comes to the point where nodes are moved. -/
def Holds (d : Document) (p : NodeId) : Prop :=
  ∃ m, d.view p = some m ∧ m.data.isContainer = true

theorem requireContainer_refused {p : NodeId} (h : ¬d.Holds p) :
    ∃ e, requireContainer p d = .error e d :=
  requireContainer_error fun n node => by
    cases container : n.data.isContainer with
    | false => rfl
    | true => exact (h ⟨n, node, container⟩).elim

theorem Sound.append (h : d.Sound) {p c : NodeId} (apart : d.Holds p → ¬d.Entangled p c) :
    ((append p c).after d).Sound := by
  rcases append_cases h.forest.linked p c with ⟨e, run⟩ | ⟨m, n, d', host, container, node, solid, run, view⟩
  · rwa [after_error run]
  · refine ⟨lasting_accounted.append p c d h.accounted, ?_⟩
    have notAbove : ¬d.view.Above c p := by
      by_cases fragment : n.data = .fragment
      · exact fun above => apart ⟨m, host, container⟩ ⟨⟨n, node, fragment⟩, above⟩
      · exact solid fragment
    rw [after_ok run, view]
    exact forest_moved h.forest host container node notAbove _

theorem Sound.insertBefore (h : d.Sound) {p c r : NodeId}
    (apart : d.Inserts p c r → ¬d.Entangled p c) : ((insertBefore p c r).after d).Sound := by
  have other : d.Inserts p c r → ∀ n, d.view c = some n → n.data = .fragment → c ≠ p := by
    rintro inserts n node fragment rfl
    exact apart inserts ⟨⟨n, node, fragment⟩, .self⟩
  rcases insertBefore_cases h.forest.linked p c r other with ⟨e, run⟩ | ⟨-, run⟩ |
      ⟨m, n, k, d', inserts, host, container, node, solid, -, -, run, view, -⟩
  · rwa [after_error run]
  · rwa [after_ok run]
  · refine ⟨lasting_accounted.insertBefore p c r d h.accounted, ?_⟩
    have notAbove : ¬d.view.Above c p := by
      by_cases fragment : n.data = .fragment
      · exact fun above => apart inserts ⟨⟨n, node, fragment⟩, above⟩
      · exact solid fragment
    rw [after_ok run, view]
    exact forest_moved h.forest host container node notAbove _

theorem keeps_remove (p c : NodeId) : Keeps Sound (remove p c) := by
  intro d h
  refine ⟨lasting_accounted.remove p c d h.accounted, ?_⟩
  by_cases there : ∃ m, d.view p = some m ∧ c ∈ m.children
  · obtain ⟨m, host, mem⟩ := there
    obtain ⟨d', run, view⟩ := remove_ok h.forest.linked host mem
    rw [after_ok run, view]
    exact h.forest.prune _
  · obtain ⟨e, run⟩ := remove_error fun m host mem => there ⟨m, host, mem⟩
    rw [after_error run]
    exact h.forest

theorem Sound.replace (h : d.Sound) {p new old : NodeId}
    (apart : d.Inserts p new old → ¬d.Entangled p new) : ((replace p new old).after d).Sound := by
  by_cases same : new = old
  · have run : Document.replace p new old d = .ok () d := by simp [Document.replace, same]
    rwa [after_ok run]
  · have first := h.insertBefore apart
    unfold Document.replace
    rw [if_neg same]
    exact after_bind first (fun _ d' h' => keeps_remove p old d' h') fun _ h' => h'

theorem keeps_release (id : NodeId) : Keeps Sound (release id) := by
  intro d h
  refine ⟨lasting_accounted.release id d h.accounted, ?_⟩
  cases node : d.view id with
  | none =>
      rw [after_error (release_error node)]
      exact h.forest
  | some n =>
      obtain ⟨d', run, thinned, -⟩ := release_ok h.forest node
      rw [after_ok run]
      exact (h.forest.prune _).thin thinned

theorem keeps_clear (id : NodeId) : Keeps Sound (clear id) :=
  (Keeps.ask _).bind fun _ => .loop fun c _ => keeps_remove id c

theorem keeps_discardChildren (id : NodeId) : Keeps Sound (discardChildren id) :=
  (Keeps.ask _).bind fun _ => .loop fun c _ => keeps_release c

/-- Nodes that are moved keep their data. -/
theorem Sound.data_append (h : d.Sound) (p c : NodeId) {x : NodeId} {n' : Node}
    (after : ((Document.append p c).after d).view x = some n') :
    ∃ n, d.view x = some n ∧ n.data = n'.data := by
  rcases append_cases h.forest.linked p c with ⟨e, run⟩ | ⟨m, n, d', -, -, -, -, run, view⟩
  · rw [after_error run] at after
    exact ⟨n', after, rfl⟩
  · rw [after_ok run, view] at after
    obtain ⟨k, pruned, data, -⟩ := graft_eq_some after
    obtain ⟨l, old, data', -⟩ := prune_eq_some pruned
    exact ⟨l, old, (data.trans data').symm⟩

theorem keeps_moveChildren (source target : NodeId) : Keeps Sound (moveChildren source target) := by
  intro d h
  unfold moveChildren
  cases node : d.view source with
  | none => rwa [after_bind_error (ask_error (children_eq_error node))]
  | some n =>
      rw [after_bind_ok (ask_ok (children_eq_ok node))]
      have solid : ∀ c ∈ n.children, ∀ m, d.view c = some m → m.data ≠ .fragment := by
        intro c mem m child fragment
        obtain ⟨k, child', parent⟩ := h.forest.child node mem
        rw [child] at child'
        cases child'
        rw [h.forest.fragment_parent child fragment] at parent
        cases parent
      -- The listed children are no fragments before each step.
      have every : Keeps
          (fun d => d.Sound ∧ ∀ c ∈ n.children, ∀ m, d.view c = some m → m.data ≠ .fragment)
          (do for child in n.children do append target child) := by
        refine .loop fun c mem d ⟨sound, solid⟩ => ⟨sound.append fun _ entangled => ?_, ?_⟩
        · obtain ⟨⟨m, child, fragment⟩, -⟩ := entangled
          exact solid c mem m child fragment
        · intro c' mem' m' node'
          obtain ⟨m, old, same⟩ := sound.data_append target c node'
          exact same ▸ solid c' mem' m old
      exact (every d ⟨h, solid⟩).1

/-! ## Content -/

theorem keeps_appendText (id : NodeId) (value : String) :
    Keeps Sound (do append id (← createText value)) := by
  intro d h
  have made : AttributesDistinct (.text value) := List.nodup_nil
  have created := sound_create h made
  rw [after_bind_ok (show createText value d = .ok _ _ from change_run _ d)]
  refine created.append fun _ entangled => ?_
  obtain ⟨⟨n, node, fragment⟩, -⟩ := entangled
  have view := (h.accounted.allocate { data := .text value, parent := none, children := [] }).2.1
  rw [create, view, put_self] at node
  cases node
  cases fragment

theorem keeps_setText (id : NodeId) (value : String) : Keeps Sound (setText id value) := by
  intro d h
  unfold setText
  cases node : d.view id with
  | none => rwa [after_bind_error (ask_error (data_eq_error node))]
  | some n =>
      rw [after_bind_ok (ask_ok (data_eq_ok node))]
      obtain ⟨data, parent, children⟩ := n
      cases data with
      | text => exact sound_redata h (.text value) node rfl nofun List.nodup_nil rfl
      | comment => exact sound_redata h (.comment value) node rfl nofun List.nodup_nil rfl
      | doctype => exact h
      | element | fragment =>
          exact ((keeps_discardChildren id).bind fun _ =>
            .ite (fun _ => .pure _) fun _ => keeps_appendText id value) d h

/-- Giving up nodes puts none above another. -/
theorem keeps_apart_release (a x id : NodeId) :
    Keeps (fun d => d.Sound ∧ ¬d.view.Above a x) (release id) := by
  rintro d ⟨h, apart⟩
  refine ⟨keeps_release id d h, fun above => apart ?_⟩
  cases node : d.view id with
  | none => rwa [after_error (release_error node)] at above
  | some n =>
      obtain ⟨d', run, thinned, -⟩ := release_ok h.forest node
      rw [after_ok run] at above
      exact (above.of_thinned thinned).of_prune

/-- A new tree is not above the nodes that were there. -/
theorem Trades.not_above {d' : Document} {labels : List NodeId} (trades : Trades d d' [] labels)
    (f : d.view.Forest) {a x : NodeId} (new : a ∈ labels) {n : Node} (old : d.view x = some n) :
    ¬d'.view.Above a x := by
  intro above
  induction above generalizing n with
  | self =>
      rw [trades.fresh a new (by simp)] at old
      cases old
  | step node parent _ ih =>
      rw [trades.kept old (by simp)] at node
      cases node
      obtain ⟨m, up, -⟩ := f.parent old parent
      exact ih up

theorem parseMarkup_ok (h : d.Accounted) {markup : String} {root : NodeId} {d' : Document}
    (run : parseMarkup markup d = .ok root d') :
    d.plant none (.node () .fragment (parse markup).1) = (root, d') := by
  unfold parseMarkup at run
  rw [bind_ok (plantMarkup_run h markup)] at run
  dsimp only at run
  rw [bind_ok (get_run _)] at run
  split at run
  · cases run
  · cases run
    rfl

/-- A document that mends flaws of markup reads any markup, and each one reads markup without. -/
theorem parseMarkup_clean (h : d.Accounted) (markup : String) (clean : d.strict = false ∨ (parse markup).2 = [])
    (kept : (d.plant none (.node () .fragment (parse markup).1)).2.strict = d.strict) :
    parseMarkup markup d = .ok (d.plant none (.node () .fragment (parse markup).1)).1
      (d.plant none (.node () .fragment (parse markup).1)).2 := by
  unfold parseMarkup
  rw [bind_ok (plantMarkup_run h markup)]
  dsimp only
  rw [bind_ok (get_run _), kept]
  rcases clean with lenient | flawless
  · rw [lenient]
    rfl
  · rw [flawless]
    cases d.strict <;> rfl

theorem keeps_setInner (id : NodeId) (markup : String) : Keeps Sound (setInner id markup) := by
  intro d h
  unfold setInner
  by_cases holds : d.Holds id
  · obtain ⟨m, host, container⟩ := holds
    rw [after_bind_ok (requireContainer_ok host container)]
    have parsed := keeps_parseMarkup markup d h
    cases run : parseMarkup markup d with
    | error e d₁ =>
        rw [after_error run] at parsed
        rwa [after_bind_error run]
    | ok fragment d₁ =>
        rw [after_ok run] at parsed
        rw [after_bind_ok run]
        have whole := parseMarkup_ok h.accounted run
        obtain ⟨s, label, planted⟩ :=
          planted_plant (.node () .fragment (parse markup).1) none d h.accounted
        rw [whole] at label planted
        have new : fragment ∈ s.labels := by
          have top := label_mem_labels s
          rwa [label] at top
        -- Discarding children does not put the new fragment above the node.
        have emptied : Keeps (fun d => d.Sound ∧ ¬d.view.Above fragment id) (discardChildren id) :=
          (Keeps.ask _).bind fun _ => .loop fun c _ => keeps_apart_release fragment id c
        have discarded := emptied d₁ ⟨parsed, planted.trades.not_above h.forest new host⟩
        refine after_bind (P := fun d => d.Sound ∧ ¬d.view.Above fragment id) discarded
          (fun _ d₂ ⟨sound, apart⟩ => ?_) fun _ kept => kept.1
        exact after_bind (sound.append fun _ entangled => apart entangled.2)
          (fun _ d₃ kept => keeps_release fragment d₃ kept) fun _ kept => kept
  · obtain ⟨e, refused⟩ := requireContainer_refused holds
    rwa [after_bind_error refused]

end Document

end Stencil
