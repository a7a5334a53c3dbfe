import Stencil.Proofs.Document.Refusal
import Stencil.Proofs.Document.Tending

/-! # Strict and lenient documents

Whether a document is strict matters when markup is read and nowhere else. Every other edit does
to a document what it does to the lenient document with the same nodes, and markup that a strict
document takes is read alike by both.
-/

namespace Stencil

open Markup

namespace Document

/-- The document with the same nodes that mends flaws of markup. -/
def lenient (d : Document) : Document := { d with strict := false }

variable {d : Document}

@[simp] theorem view_lenient (d : Document) : d.lenient.view = d.view := rfl

theorem sound_lenient : d.lenient.Sound ↔ d.Sound :=
  ⟨fun h => ⟨⟨h.accounted.nodup, h.accounted.mem_free_iff⟩, h.forest⟩,
    fun h => ⟨⟨h.accounted.nodup, h.accounted.mem_free_iff⟩, h.forest⟩⟩

theorem Sound.steady (h : d.Sound) : d.lenient.Steady := ⟨sound_lenient.2 h, rfl⟩

theorem treeWithin_lenient (d : Document) : (fuel : Nat) → (id : NodeId) →
    d.lenient.treeWithin fuel id = d.treeWithin fuel id
  | 0, _ => rfl
  | fuel + 1, id => by
      have below : d.lenient.treeWithin fuel = d.treeWithin fuel :=
        funext (treeWithin_lenient d fuel)
      rw [treeWithin, treeWithin, below]
      rfl

theorem isAboveWithin_lenient (d : Document) (candidate : NodeId) : (fuel : Nat) → (id : NodeId) →
    d.lenient.isAboveWithin candidate fuel id = d.isAboveWithin candidate fuel id
  | 0, _ => rfl
  | fuel + 1, id => by
      have above : d.lenient.isAboveWithin candidate fuel = d.isAboveWithin candidate fuel :=
        funext (isAboveWithin_lenient d candidate fuel)
      rw [isAboveWithin, isAboveWithin, above]
      rfl

theorem allocate_lenient (d : Document) (n : Node) :
    d.lenient.allocate n = ((d.allocate n).1, (d.allocate n).2.lenient) := by
  obtain ⟨slots, free, name, strict⟩ := d
  cases free <;> rfl

theorem vacate?_lenient (d : Document) (id : NodeId) :
    d.lenient.vacate? id = (d.vacate? id).map fun found => (found.1, found.2.lenient) := by
  unfold vacate?
  rw [Option.map_map]
  rfl

theorem vacateAll_lenient (d : Document) (stack : List NodeId) :
    d.lenient.vacateAll stack = (d.vacateAll stack).lenient := by
  induction d, stack using vacateAll.induct with
  | case1 d => rw [vacateAll, vacateAll]
  | case2 d id stack missing ih =>
      rw [vacateAll_skip missing, vacateAll_skip (by rw [vacate?_lenient, missing]; rfl), ih]
  | case3 d id stack n rest found _ ih =>
      rw [vacateAll_cons found, vacateAll_cons (by rw [vacate?_lenient, found]; rfl), ih]

end Document

section Runs

variable {ε α β γ δ : Type} {f : α → β} {g : γ → δ} {e : EStateM ε Document α}
  {e' : EStateM ε Document β} {k : α → EStateM ε Document γ} {k' : β → EStateM ε Document δ}

/-- A run in a document and a run in the lenient document do the same, results read through `f`. -/
def Mirrors (f : α → β) (e : EStateM ε Document α) (e' : EStateM ε Document β) : Prop :=
  ∀ d, e' d.lenient = match e d with
    | .ok a d' => .ok (f a) d'.lenient
    | .error x d' => .error x d'.lenient

/-- What succeeds in a document succeeds in the lenient document. -/
def Follows (f : α → β) (e : EStateM ε Document α) (e' : EStateM ε Document β) : Prop :=
  ∀ ⦃d a d'⦄, e d = .ok a d' → e' d.lenient = .ok (f a) d'.lenient

namespace Mirrors

theorem ok (h : Mirrors f e e') {d d' : Document} {a : α} (run : e d = .ok a d') :
    e' d.lenient = .ok (f a) d'.lenient := by
  rw [h d, run]

theorem error (h : Mirrors f e e') {d d' : Document} {x : ε} (run : e d = .error x d') :
    e' d.lenient = .error x d'.lenient := by
  rw [h d, run]

theorem follows (h : Mirrors f e e') : Follows f e e' := fun _ _ _ => h.ok

/-- What succeeds in the lenient document succeeds in the document. -/
theorem of_ok (h : Mirrors f e e') {d d₁ : Document} {b : β} (run : e' d.lenient = .ok b d₁) :
    ∃ a d', e d = .ok a d' ∧ f a = b ∧ d'.lenient = d₁ := by
  cases own : e d with
  | ok a d' =>
      rw [h.ok own] at run
      cases run
      exact ⟨a, d', rfl, rfl, rfl⟩
  | error x d' =>
      rw [h.error own] at run
      cases run

theorem pure (f : α → β) (a : α) : Mirrors f (pure a : EStateM ε Document α) (pure (f a)) :=
  fun _ => rfl

theorem throw (f : α → β) (x : ε) :
    Mirrors f (throw x : EStateM ε Document α) (throw x : EStateM ε Document β) := fun _ => rfl

/-- The second of two runs has to be mirrored for what the first can give. -/
theorem bind_of (h : Mirrors f e e')
    (next : ∀ a d d', e d = .ok a d' → Mirrors g (k a) (k' (f a))) :
    Mirrors g (e >>= k) (e' >>= k') := by
  intro d
  cases run : e d with
  | ok a d' => rw [bind_ok run, bind_ok (h.ok run), next a d d' run d']
  | error x d' => rw [bind_error run, bind_error (h.error run)]

theorem bind (h : Mirrors f e e') (next : ∀ a, Mirrors g (k a) (k' (f a))) :
    Mirrors g (e >>= k) (e' >>= k') := h.bind_of fun a _ _ _ => next a

end Mirrors

namespace Follows

theorem pure (f : α → β) (a : α) : Follows f (pure a : EStateM ε Document α) (pure (f a)) :=
  (Mirrors.pure f a).follows

theorem bind (h : Follows f e e') (next : ∀ a, Follows g (k a) (k' (f a))) :
    Follows g (e >>= k) (e' >>= k') := by
  intro d c d' run
  obtain ⟨a, d₁, first, second⟩ := of_bind_ok run
  rw [bind_ok (h first)]
  exact next a second

end Follows

/-- A run that does not mind whether the document is strict. -/
abbrev Blind (e : EStateM ε Document α) : Prop := Mirrors (fun a => a) e e

end Runs

namespace Blind

open Edit Document

variable {α β γ : Type}

theorem ask {question : Document → Except DomError α}
    (h : ∀ d, question d.lenient = question d) : Blind (ask question) := by
  intro d
  cases answer : question d with
  | ok a => rw [ask_ok answer, ask_ok ((h d).trans answer)]
  | error x => rw [ask_error answer, ask_error ((h d).trans answer)]

theorem change {f : Document → α × Document}
    (h : ∀ d, f d.lenient = ((f d).1, (f d).2.lenient)) : Blind (change f) := by
  intro d
  rw [change_run, change_run, h d]

theorem modifyNode (id : NodeId) (f : Node → Node) : Blind (modifyNode id f) := by
  intro d
  cases node : d.view id with
  | none => rw [modifyNode_error f node, modifyNode_error f (show d.lenient.view id = none from node)]
  | some n =>
      rw [modifyNode_ok f node, modifyNode_ok f (show d.lenient.view id = some n from node)]
      rfl

theorem ite {c : Prop} [Decidable c] {e f : Edit α} (he : Blind e) (hf : Blind f) :
    Blind (if c then e else f) := by
  split
  · exact he
  · exact hf

theorem forIn {xs : List γ} {init : β} {body : γ → β → Edit (ForInStep β)}
    (h : ∀ x b, Blind (body x b)) : Blind (ForIn.forIn xs init body) := by
  induction xs generalizing init with
  | nil => exact Mirrors.pure _ init
  | cons x xs ih =>
      rw [List.forIn_cons]
      refine (h x init).bind fun step => ?_
      cases step with
      | done b => exact Mirrors.pure _ b
      | yield b => exact ih

/-- A loop that edits once for every element. -/
theorem loop {xs : List γ} {e : γ → Edit Unit} (h : ∀ x, Blind (e x)) :
    Blind (do for x in xs do e x) :=
  (forIn fun x _ => (h x).bind fun _ => .pure _ _).bind fun _ => .pure _ _

theorem forM {xs : List γ} {e : γ → Edit PUnit} (h : ∀ x, Blind (e x)) : Blind (xs.forM e) := by
  induction xs with
  | nil => exact .pure _ _
  | cons x xs ih => exact (h x).bind fun _ => ih

/-! ## Subtrees -/

theorem isAbove (candidate id : NodeId) : Blind (Edit.ask (·.isAbove candidate id)) :=
  ask fun d => isAboveWithin_lenient d candidate _ id

/-! ## Changes -/

theorem hang (parent child : NodeId) : Blind (hang parent child) :=
  (modifyNode child _).bind fun _ => modifyNode parent _

theorem copyWithin (fuel : Nat) (id : NodeId) : Blind (copyWithin fuel id) := by
  induction fuel generalizing id with
  | zero => exact .throw _ _
  | succ fuel ih =>
      have copied : Blind (copy id) :=
        (ask fun _ => rfl).bind fun data => change fun d => allocate_lenient d _
      exact copied.bind fun root => (ask fun _ => rfl).bind fun children =>
        (forM fun child => (ih child).bind fun c => hang root c).bind fun _ => .pure _ _

theorem copyTree (id : NodeId) : Blind (copyTree id) :=
  (ask fun _ => rfl).bind fun levels => copyWithin levels id

theorem createText (words : String) : Blind (createText words) := change fun d => allocate_lenient d _

theorem removeAttribute (id : NodeId) (name : String) : Blind (removeAttribute id name) :=
  (ask fun _ => rfl).bind fun _ => modifyNode id _

theorem requireContainer (id : NodeId) : Blind (requireContainer id) := by
  unfold Document.requireContainer
  exact (ask fun _ => rfl).bind fun _ => ite (.pure _ _) (.throw _ _)

theorem detach (c : NodeId) : Blind (detach c) := by
  unfold Document.detach
  refine (ask fun _ => rfl).bind fun parent => ?_
  cases parent with
  | none => exact .pure _ _
  | some p => exact (modifyNode p _).bind fun _ => modifyNode c _

theorem takeFor (p c : NodeId) : Blind (takeFor p c) := by
  unfold Document.takeFor
  refine (requireContainer p).bind fun _ => (ask fun _ => rfl).bind fun n => ?_
  have named (moved : List NodeId) : Blind (do
      for id in moved do
        setParent (some p) id
      return moved) :=
    (forIn fun x _ => (modifyNode x _).bind fun _ => .pure _ _).bind fun _ => .pure _ _
  obtain ⟨data, parent, children⟩ := n
  cases data with
  | fragment => exact (modifyNode c _).bind fun _ => named children
  | element | text | comment | doctype =>
      exact (isAbove c p).bind fun _ => ite ((Mirrors.throw (fun a => a) _).bind fun _ =>
        (detach c).bind fun _ => named [c]) ((detach c).bind fun _ => named [c])

theorem append (p c : NodeId) : Blind (append p c) := (takeFor p c).bind fun _ => modifyNode p _

theorem tryCatch {e : Edit α} {handle : DomError → Edit α} (he : Blind e)
    (hh : ∀ x, Blind (handle x)) : Blind (tryCatch e handle) := by
  intro d
  cases run : e d with
  | ok a d' => rw [tryCatch_ok run, tryCatch_ok (he.ok run)]
  | error x d' => rw [tryCatch_error run, tryCatch_error (he.error run), hh x d']

theorem discard {e : Edit α} (h : Blind e) : Blind (Functor.discard e : Edit PUnit) := by
  intro d
  cases run : e d with
  | ok a d' => rw [discard_ok run, discard_ok (h.ok run)]
  | error x d' => rw [discard_error run, discard_error (h.error run)]

theorem foldlM {xs : List γ} {e : β → γ → Edit β} (h : ∀ b x, Blind (e b x)) (b : β) :
    Blind (xs.foldlM e b) := by
  induction xs generalizing b with
  | nil => exact .pure _ _
  | cons x xs ih =>
      rw [List.foldlM_cons]
      exact (h b x).bind ih

/-! ## Markup -/

theorem add (b : Builder) (data : NodeData) : Blind (b.add data) :=
  (change fun d => allocate_lenient d _).bind fun id =>
    (tryCatch (append _ id) fun _ => .pure _ _).bind fun _ => .pure _ _

theorem step (b : Builder) (token : Token) : Blind (b.step token) := by
  unfold Builder.step
  cases token.lexeme with
  | text value | comment value | doctype value =>
      exact (discard (add b _)).bind fun _ => .pure _ _
  | openTag name attributes selfClosing =>
      exact (add _ _).bind fun _ => ite (.pure _ _) (.pure _ _)
  | closeTag name =>
      refine ite (.pure _ _) ?_
      cases b.opened.findIdx? (·.name == name) with
      | none => exact .pure _ _
      | some inside => exact .pure _ _

/-- The flaws of markup are reported alike by a strict document and a lenient one. -/
theorem plantMarkup (markup : String) : Blind (plantMarkup markup) := by
  have read : Mirrors lenient (get : Edit Document) get := fun _ => rfl
  exact read.bind fun _ => (change fun d => allocate_lenient d _).bind fun _ =>
    (foldlM step _).bind fun _ => .pure _ _

/-! ## More changes -/

theorem release (id : NodeId) : Blind (release id) :=
  (detach id).bind fun _ => change fun d => by rw [vacateAll_lenient]

theorem discardChildren (id : NodeId) : Blind (discardChildren id) :=
  (ask fun _ => rfl).bind fun _ => loop release

theorem moveChildren (source target : NodeId) : Blind (moveChildren source target) :=
  (ask fun _ => rfl).bind fun _ => loop (append target)

theorem setText (id : NodeId) (words : String) : Blind (setText id words) := by
  unfold Document.setText
  refine (ask fun _ => rfl).bind fun data => ?_
  cases data with
  | text | comment => exact modifyNode id _
  | doctype => exact .throw _ _
  | element | fragment =>
      exact (discardChildren id).bind fun _ => ite (.pure _ _) ((createText words).bind fun text => append id text)

end Blind

/-! ## Markup -/

namespace Document

open Edit

variable {d d' : Document} {g : NodeId} {n : Node} {markup : String}

/-- Markup that is taken is read alike by the lenient document. -/
theorem parseMarkup_follows (markup : String) :
    Follows (fun a => a) (parseMarkup markup) (parseMarkup markup) := by
  unfold parseMarkup
  refine (Blind.plantMarkup markup).follows.bind fun made => ?_
  intro d root d' run
  dsimp only at run ⊢
  rw [bind_ok (get_run _)] at run ⊢
  split at run
  · cases run
  · cases run
    rfl

theorem setInner_follows (g : NodeId) (markup : String) :
    Follows (fun a => a) (setInner g markup) (setInner g markup) :=
  (Blind.requireContainer g).follows.bind fun _ => (parseMarkup_follows markup).bind fun fragment =>
    ((Blind.discardChildren g).bind fun _ =>
      (Blind.append g fragment).bind fun _ => Blind.release fragment).follows

/-- The content of a node gives way to the nodes of some markup, or the markup is refused and
nothing that was there changes. -/
theorem setInner_run (h : d.Sound) (host : d.view g = some n) (container : n.data.isContainer = true)
    (markup : String) :
    (∃ d', setInner g markup d = .ok () d' ∧ Tended g d.lenient d'.lenient) ∨
      ∃ x d', setInner g markup d = .error x d' ∧ d'.Sound ∧
        ∀ y k, d.view y = some k → d'.view y = some k := by
  cases parsed : parseMarkup markup d with
  | ok fragment d₁ =>
      obtain ⟨d', run⟩ := exists_setInner h host container parsed
      obtain ⟨e, again, tended, -⟩ := setInner_tended h.steady host container markup
      rw [setInner_follows g markup run] at again
      cases again
      exact .inl ⟨d', run, tended⟩
  | error x d₁ =>
      have run : setInner g markup d = .error x d₁ := by
        unfold setInner
        rw [bind_ok (requireContainer_ok host container), bind_error parsed]
      have sound := keeps_setInner g markup d h
      rw [after_error run] at sound
      refine .inr ⟨x, d₁, run, sound, fun y k node => ?_⟩
      obtain ⟨F, -, planted⟩ :=
        planted_plant (.node () .fragment (parse markup).1) none d h.accounted
      rcases parseMarkup_run h.accounted markup with ⟨⟨root, d', clean⟩, -⟩ | ⟨-, -, x', refused⟩
      · rw [parsed] at clean
        cases clean
      · rw [parsed] at refused
        cases refused
        exact planted.trades.kept node (by simp)

end Document

end Stencil
