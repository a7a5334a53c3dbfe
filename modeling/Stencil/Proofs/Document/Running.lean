import Stencil.Proofs.Document.Planting

/-! # Running edits

What an edit does to a document, step by step, and what edits keep whether they succeed or
are refused.
-/

namespace Stencil

open Markup

section Steps

variable {ε σ α β : Type} {s s' : σ}

theorem bind_ok {e : EStateM ε σ α} {f : α → EStateM ε σ β} {a : α} (h : e s = .ok a s') :
    (e >>= f) s = f a s' := by
  simp [bind, EStateM.bind, h]

theorem bind_error {e : EStateM ε σ α} {f : α → EStateM ε σ β} {x : ε} (h : e s = .error x s') :
    (e >>= f) s = .error x s' := by
  simp [bind, EStateM.bind, h]

theorem map_ok {e : EStateM ε σ α} {f : α → β} {a : α} (h : e s = .ok a s') :
    (f <$> e) s = .ok (f a) s' := by
  simp [Functor.map, EStateM.map, h]

theorem map_error {e : EStateM ε σ α} {f : α → β} {x : ε} (h : e s = .error x s') :
    (f <$> e) s = .error x s' := by
  simp [Functor.map, EStateM.map, h]

theorem tryCatch_ok {e : EStateM ε σ α} {handle : ε → EStateM ε σ α} {a : α} (h : e s = .ok a s') :
    (tryCatch e handle : EStateM ε σ α) s = .ok a s' := by
  change EStateM.tryCatch e handle s = _
  delta EStateM.tryCatch
  simp only [h]

theorem tryCatch_error {e : EStateM ε σ α} {handle : ε → EStateM ε σ α} {x : ε}
    (h : e s = .error x s') : (tryCatch e handle : EStateM ε σ α) s = handle x s' := by
  change EStateM.tryCatch e handle s = _
  delta EStateM.tryCatch
  simp only [h]
  rfl

/-- What two steps have given is what the second has given after the first. -/
theorem of_bind_ok {e : EStateM ε σ α} {f : α → EStateM ε σ β} {b : β}
    (h : (e >>= f) s = .ok b s') : ∃ a s₁, e s = .ok a s₁ ∧ f a s₁ = .ok b s' := by
  cases run : e s with
  | ok a s₁ =>
      rw [bind_ok run] at h
      exact ⟨a, s₁, rfl, h⟩
  | error x s₁ =>
      rw [bind_error run] at h
      cases h

/-- Steps that give the same in a state can be exchanged there. -/
theorem bind_congr_run {e e' : EStateM ε σ α} (h : e s = e' s) (f : α → EStateM ε σ β) :
    (e >>= f) s = (e' >>= f) s := by
  cases run : e' s with
  | ok a s₁ => rw [bind_ok (h.trans run), bind_ok run]
  | error x s₁ => rw [bind_error (h.trans run), bind_error run]

@[simp] theorem pure_run (a : α) (s : σ) : (pure a : EStateM ε σ α) s = .ok a s := rfl

end Steps

namespace Edit

variable {α β : Type} {d d' : Document}

theorem get_run (d : Document) : (get : Edit Document) d = .ok d d := rfl

@[simp] theorem throw_run (x : DomError) (d : Document) :
    (throw x : Edit α) d = .error x d := rfl

theorem ask_ok {question : Document → Except DomError α} {a : α} (h : question d = .ok a) :
    ask question d = .ok a d := by
  simp [ask, h]

theorem ask_error {question : Document → Except DomError α} {x : DomError}
    (h : question d = .error x) : ask question d = .error x d := by
  simp [ask, h]

/-- What is given after a question is given for its answer. -/
theorem of_ask_bind {question : Document → Except DomError α} {f : α → Edit β} {b : β}
    (h : (ask question >>= f) d = .ok b d') : ∃ a, question d = .ok a ∧ f a d = .ok b d' := by
  cases asked : question d with
  | ok a => exact ⟨a, rfl, by rwa [bind_ok (ask_ok asked)] at h⟩
  | error e =>
      rw [bind_error (ask_error asked)] at h
      cases h

theorem change_run (f : Document → α × Document) (d : Document) :
    change f d = .ok (f d).1 (f d).2 := rfl

theorem modifyNode_ok {id : NodeId} {n : Node} (f : Node → Node) (h : d.view id = some n) :
    modifyNode id f d = .ok () (d.modify id f) := by
  unfold modifyNode
  rw [bind_ok (show discard (ask (·.node id)) d = .ok () d from ?_)]
  · rfl
  · simp [discard, Functor.discard, Functor.mapConst, Function.comp, EStateM.map, ask,
      Document.node_eq_ok h]

theorem modifyNode_view {id : NodeId} {n : Node} (f : Node → Node) (h : d.view id = some n) :
    ∃ d', modifyNode id f d = .ok () d' ∧ d'.view = View.alter id f d.view :=
  ⟨_, modifyNode_ok f h, d.view_modify id f⟩

theorem modifyNode_error {id : NodeId} (f : Node → Node) (h : d.view id = none) :
    modifyNode id f d = .error (.unknownNode id) d := by
  unfold modifyNode
  refine bind_error ?_
  simp [discard, Functor.discard, Functor.mapConst, Function.comp, EStateM.map, ask,
    Document.node_eq_error h]

/-! ## Loops -/

variable {γ : Type} {d₁ : Document}

theorem loop_nil (e : γ → Edit Unit) (d : Document) :
    (do for x in ([] : List γ) do e x : Edit Unit) d = .ok () d := rfl

theorem loop_cons {e : γ → Edit Unit} {x : γ} {xs : List γ} (first : e x d = .ok () d₁)
    (others : (do for y in xs do e y : Edit Unit) d₁ = .ok () d') :
    (do for y in x :: xs do e y : Edit Unit) d = .ok () d' := by
  have step : (e x >>= fun _ => pure (ForInStep.yield PUnit.unit)) d =
      .ok (ForInStep.yield PUnit.unit) d₁ := bind_ok first
  rw [List.forIn_cons, bind_assoc, bind_ok step]
  exact others

/-! ## What stays true -/

/-- The document after an edit, whether it has succeeded or not. -/
def after (e : Edit α) (d : Document) : Document :=
  match e d with
  | .ok _ d' => d'
  | .error _ d' => d'

theorem after_ok {e : Edit α} {a : α} (h : e d = .ok a d') : e.after d = d' := by
  simp [after, h]

theorem after_error {e : Edit α} {x : DomError} (h : e d = .error x d') : e.after d = d' := by
  simp [after, h]

theorem after_bind_ok {e : Edit α} {f : α → Edit β} {a : α} (h : e d = .ok a d') :
    (e >>= f).after d = (f a).after d' := by
  simp [after, bind_ok h]

theorem after_bind_error {e : Edit α} {f : α → Edit β} {x : DomError} (h : e d = .error x d') :
    (e >>= f).after d = d' := by
  simp [after, bind_error h]

/-- What holds after the first of two edits is passed on by the second, and must be enough
when the first is refused. -/
theorem after_bind {P Q : Document → Prop} {e : Edit α} {f : α → Edit β} (he : P (e.after d))
    (hf : ∀ a d', P d' → Q ((f a).after d')) (refused : ∀ d', P d' → Q d') :
    Q ((e >>= f).after d) := by
  cases run : e d with
  | ok a d' =>
      rw [after_ok run] at he
      rw [after_bind_ok run]
      exact hf a d' he
  | error x d' =>
      rw [after_error run] at he
      rw [after_bind_error run]
      exact refused d' he

/-- An edit keeps what is true of a document, also when it is refused. -/
def Keeps (P : Document → Prop) (e : Edit α) : Prop := ∀ d, P d → P (e.after d)

namespace Keeps

variable {P : Document → Prop}

theorem bind {e : Edit α} {f : α → Edit β} (he : Keeps P e) (hf : ∀ a, Keeps P (f a)) :
    Keeps P (e >>= f) := fun d h =>
  after_bind (he d h) (fun a d' h' => hf a d' h') fun _ h' => h'

theorem pure (a : α) : Keeps P (pure a) := fun _ h => h

theorem throw (x : DomError) : Keeps P (throw x : Edit α) := fun _ h => h

theorem ask (question : Document → Except DomError α) : Keeps P (ask question) := by
  intro d h
  cases hq : question d with
  | ok a => rwa [after_ok (ask_ok hq)]
  | error x => rwa [after_error (ask_error hq)]

theorem read : Keeps P (get : Edit Document) := fun _ h => h

theorem change {f : Document → α × Document} (h : ∀ d, P d → P (f d).2) :
    Keeps P (change f) := h

theorem modifyNode {id : NodeId} {f : Node → Node} (h : ∀ d, P d → P (d.modify id f)) :
    Keeps P (modifyNode id f) := by
  intro d hd
  cases node : d.view id with
  | none => rwa [after_error (modifyNode_error f node)]
  | some n =>
      rw [after_ok (modifyNode_ok f node)]
      exact h d hd

theorem ite {c : Prop} [Decidable c] {e f : Edit α} (he : c → Keeps P e) (hf : ¬c → Keeps P f) :
    Keeps P (if c then e else f) := by
  split
  · exact he ‹_›
  · exact hf ‹_›

theorem forIn {γ : Type} {xs : List γ} {init : β} {body : γ → β → Edit (ForInStep β)}
    (h : ∀ x ∈ xs, ∀ b, Keeps P (body x b)) : Keeps P (ForIn.forIn xs init body) := by
  induction xs generalizing init with
  | nil => exact pure init
  | cons x xs ih =>
      rw [List.forIn_cons]
      refine bind (h x (by simp) init) fun step => ?_
      cases step with
      | done b => exact pure b
      | yield b => exact ih fun y mem => h y (by simp [mem])

/-- A loop that edits once for every element. -/
theorem loop {γ : Type} {xs : List γ} {e : γ → Edit Unit} (h : ∀ x ∈ xs, Keeps P (e x)) :
    Keeps P (do for x in xs do e x) :=
  (forIn fun x mem _ => (h x mem).bind fun _ => pure _).bind fun _ => pure _

theorem forM {γ : Type} {xs : List γ} {e : γ → Edit PUnit} (h : ∀ x ∈ xs, Keeps P (e x)) :
    Keeps P (xs.forM e) := by
  induction xs with
  | nil => exact pure _
  | cons x xs ih => exact (h x (by simp)).bind fun _ => ih fun y mem => h y (by simp [mem])

theorem foldlM {γ : Type} {xs : List γ} {e : β → γ → Edit β} (h : ∀ b, ∀ x ∈ xs, Keeps P (e b x))
    (b : β) : Keeps P (xs.foldlM e b) := by
  induction xs generalizing b with
  | nil => exact pure b
  | cons x xs ih =>
      rw [List.foldlM_cons]
      exact (h b x (by simp)).bind fun b => ih (fun b y mem => h b y (by simp [mem])) b

theorem tryCatch {e : Edit α} {handle : DomError → Edit α} (he : Keeps P e)
    (hh : ∀ x, Keeps P (handle x)) : Keeps P (tryCatch e handle) := by
  intro d h
  cases run : e d with
  | ok a d' =>
      have same : (MonadExcept.tryCatch e handle : Edit α) d = .ok a d' := tryCatch_ok run
      rw [after_ok same, ← after_ok run]
      exact he d h
  | error x d' =>
      have same : (MonadExcept.tryCatch e handle : Edit α) d = handle x d' := tryCatch_error run
      have kept := hh x d' (after_error run ▸ he d h)
      unfold after at kept ⊢
      rwa [same]

end Keeps

end Edit

end Stencil
