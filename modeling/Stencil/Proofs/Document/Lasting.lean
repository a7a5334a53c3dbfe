import Stencil.Proofs.Document.Releasing

/-! # What no edit undoes

A property that filling, changing and emptying a single slot keep is kept by every edit,
whatever nodes it is given and whether it succeeds.
-/

namespace Stencil

open Markup

namespace Document

/-- A property of documents that no change of a single slot undoes. -/
structure Lasting (P : Document → Prop) : Prop where
  allocate : ∀ {d : Document} (n : Node), P d → P (d.allocate n).2
  modify : ∀ {d : Document} (id : NodeId) (f : Node → Node), P d → P (d.modify id f)
  vacate? : ∀ {d rest : Document} {id : NodeId} {n : Node}, d.vacate? id = some (n, rest) →
    P d → P rest

/-- The slots stay accounted for. -/
theorem lasting_accounted : Lasting Accounted where
  allocate n h := (h.allocate n).2.2
  modify id f h := h.modify id f
  vacate? found h := h.vacate? found

/-- A document keeps its name and stays strict or lenient. -/
theorem lasting_settings (name : String) (strict : Bool) :
    Lasting fun d => d.name = name ∧ d.strict = strict where
  allocate n h := by
    simp only [Document.allocate]
    split <;> exact h
  modify _ _ h := h
  vacate? found h := by
    obtain ⟨n, -, same⟩ := Option.map_eq_some_iff.1 found
    simp only [Prod.mk.injEq] at same
    obtain ⟨-, rfl⟩ := same
    exact h

open Edit

/-- Taking a node out of its parent only changes records of nodes. -/
theorem keeps_detach {P : Document → Prop}
    (modify : ∀ {d : Document} (id : NodeId) (f : Node → Node), P d → P (d.modify id f))
    (c : NodeId) : Keeps P (detach c) := by
  unfold Document.detach
  refine (Keeps.ask _).bind fun parent => ?_
  cases parent with
  | none => exact .pure _
  | some p =>
      exact (Keeps.modifyNode fun _ => modify p _).bind fun _ =>
        Keeps.modifyNode fun _ => modify c _

namespace Lasting

variable {P : Document → Prop}

/-! ## Parts of edits -/

theorem create (l : Lasting P) (data : NodeData) :
    Keeps P (change fun d => d.create data) :=
  Keeps.change fun _ => l.allocate _

theorem modifyNode (l : Lasting P) (id : NodeId) (f : Node → Node) :
    Keeps P (modifyNode id f) :=
  Keeps.modifyNode fun _ => l.modify id f

mutual

theorem plant {ι : Type} (l : Lasting P) : (t : NodeTree ι) → (p : Option NodeId) →
    (d : Document) → P d → P (d.plant p t).2
  | .node _ data children, p, d, h => by
      rw [Document.plant]
      exact l.modify _ _ (plantAll l children _ _ (l.allocate _ h))

theorem plantAll {ι : Type} (l : Lasting P) : (ts : List (NodeTree ι)) → (p : NodeId) →
    (d : Document) → P d → P (Document.plantAll p d ts).2
  | [], p, d, h => h
  | t :: ts, p, d, h => by
      rw [Document.plantAll]
      exact plantAll l ts p _ (plant l t (some p) d h)

end

theorem requireContainer (id : NodeId) : Keeps P (requireContainer id) := by
  unfold Document.requireContainer
  exact (Keeps.ask _).bind fun _ => .ite (fun _ => .pure _) fun _ => .throw _

theorem place (p c : NodeId) : Keeps P (place p c) := by
  unfold Document.place
  refine (Keeps.ask _).bind fun cs => ?_
  split
  · exact .pure _
  · exact .throw _

theorem discard {α : Type} {e : Edit α} (h : Keeps P e) :
    Keeps P (Functor.discard e : Edit PUnit) := by
  intro d hd
  have kept := h d hd
  cases run : e d with
  | ok a d' => rwa [after_ok (discard_ok run), ← after_ok run]
  | error x d' => rwa [after_error (discard_error run), ← after_error run]

/-! ## Edits -/

theorem detach (l : Lasting P) (c : NodeId) : Keeps P (detach c) := keeps_detach l.modify c

theorem takeFor (l : Lasting P) (p c : NodeId) : Keeps P (takeFor p c) := by
  unfold Document.takeFor
  refine (requireContainer p).bind fun _ => (Keeps.ask _).bind fun n => ?_
  have named (moved : List NodeId) : Keeps P (do
      for id in moved do
        setParent (some p) id
      return moved) :=
    (Keeps.forIn fun x _ _ => (l.modifyNode x _).bind fun _ => .pure _).bind fun _ => .pure _
  obtain ⟨data, parent, children⟩ := n
  cases data with
  | fragment => exact (l.modifyNode c _).bind fun _ => named children
  | element | text | comment | doctype =>
      exact (Keeps.ask _).bind fun above => .ite (fun _ => (Keeps.throw _).bind fun _ =>
        (l.detach c).bind fun _ => named [c]) fun _ => (l.detach c).bind fun _ => named [c]

theorem append (l : Lasting P) (p c : NodeId) : Keeps P (append p c) :=
  (l.takeFor p c).bind fun _ => l.modifyNode p _

theorem insertBefore (l : Lasting P) (p c r : NodeId) : Keeps P (insertBefore p c r) := by
  unfold Document.insertBefore
  exact .ite (fun _ => .pure _) fun _ => (discard (place p r)).bind fun _ =>
    (l.takeFor p c).bind fun _ => (place p r).bind fun _ => l.modifyNode p _

theorem remove (l : Lasting P) (p c : NodeId) : Keeps P (remove p c) :=
  (place p c).bind fun _ => (l.modifyNode p _).bind fun _ => l.modifyNode c _

theorem replace (l : Lasting P) (p new old : NodeId) : Keeps P (replace p new old) := by
  unfold Document.replace
  exact .ite (fun _ => .pure _) fun _ => (l.insertBefore p new old).bind fun _ => l.remove p old

theorem release (l : Lasting P) (id : NodeId) : Keeps P (release id) :=
  (l.detach id).bind fun _ => Keeps.change fun d h => vacateAll_induct l.vacate? d [id] h

theorem clear (l : Lasting P) (id : NodeId) : Keeps P (clear id) :=
  (Keeps.ask _).bind fun _ => .loop fun c _ => l.remove id c

theorem discardChildren (l : Lasting P) (id : NodeId) : Keeps P (discardChildren id) :=
  (Keeps.ask _).bind fun _ => .loop fun c _ => l.release c

theorem moveChildren (l : Lasting P) (source target : NodeId) :
    Keeps P (moveChildren source target) :=
  (Keeps.ask _).bind fun _ => .loop fun c _ => l.append target c

theorem add (l : Lasting P) (b : Builder) (data : NodeData) : Keeps P (b.add data) :=
  (l.create data).bind fun id => (Keeps.tryCatch (l.append _ id) fun _ => .pure _).bind fun _ =>
    .pure _

/-- The reading of a token creates at most one node. -/
theorem step (l : Lasting P) (b : Builder) (token : Token) : Keeps P (b.step token) := by
  unfold Builder.step
  cases token.lexeme with
  | text value | comment value | doctype value =>
      exact (discard (l.add b _)).bind fun _ => .pure _
  | openTag name attributes selfClosing =>
      exact (l.add _ _).bind fun _ => .ite (fun _ => .pure _) fun _ => .pure _
  | closeTag name =>
      refine .ite (fun _ => .pure _) fun _ => ?_
      cases b.opened.findIdx? (·.name == name) with
      | none => exact .pure _
      | some inside => exact .pure _

theorem plantMarkup (l : Lasting P) (markup : String) : Keeps P (plantMarkup markup) :=
  Keeps.read.bind fun _ => (l.create .fragment).bind fun _ =>
    (Keeps.foldlM (fun b token _ => l.step b token) _).bind fun _ => .pure _

theorem parseMarkup (l : Lasting P) (markup : String) : Keeps P (parseMarkup markup) := by
  unfold Document.parseMarkup
  exact (l.plantMarkup markup).bind fun _ => Keeps.read.bind fun _ =>
    .ite (fun _ => (Keeps.throw _).bind fun _ => .pure _) fun _ => .pure _

theorem setAttributeValue (l : Lasting P) (id : NodeId) (name : String) (value : Value) :
    Keeps P (setAttributeValue id name value) :=
  (Keeps.ask _).bind fun _ => l.modifyNode id _

theorem removeAttribute (l : Lasting P) (id : NodeId) (name : String) :
    Keeps P (removeAttribute id name) :=
  (Keeps.ask _).bind fun _ => l.modifyNode id _

theorem setText (l : Lasting P) (id : NodeId) (value : String) : Keeps P (setText id value) := by
  unfold Document.setText
  refine (Keeps.ask _).bind fun data => ?_
  cases data with
  | text | comment => exact l.modifyNode id _
  | doctype => exact .throw _
  | element | fragment =>
      exact (l.discardChildren id).bind fun _ => .ite (fun _ => .pure _) fun _ =>
        (l.create _).bind fun text => l.append id text

theorem setInner (l : Lasting P) (id : NodeId) (markup : String) :
    Keeps P (setInner id markup) :=
  (requireContainer id).bind fun _ => (l.parseMarkup markup).bind fun fragment =>
    (l.discardChildren id).bind fun _ => (l.append id fragment).bind fun _ => l.release fragment

theorem copy (l : Lasting P) (id : NodeId) : Keeps P (copy id) :=
  (Keeps.ask _).bind fun data => l.create data

theorem hang (l : Lasting P) (parent child : NodeId) : Keeps P (hang parent child) :=
  (l.modifyNode child _).bind fun _ => l.modifyNode parent _

theorem copyWithin (l : Lasting P) (fuel : Nat) (id : NodeId) : Keeps P (copyWithin fuel id) := by
  induction fuel generalizing id with
  | zero => exact .throw _
  | succ fuel ih =>
      exact (l.copy id).bind fun root => (Keeps.ask _).bind fun children =>
        (Keeps.forM fun child _ => (ih child).bind fun c => l.hang root c).bind fun _ => .pure _

theorem copyTree (l : Lasting P) (id : NodeId) : Keeps P (copyTree id) :=
  (Keeps.ask _).bind fun levels => l.copyWithin levels id

end Lasting

end Document

end Stencil
