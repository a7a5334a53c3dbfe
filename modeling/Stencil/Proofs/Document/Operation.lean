import Stencil.Proofs.Document.Surgery

/-! # Operations

Every change a document offers is one operation. After any run of operations that are not
entangled, refused or not, the links of the document form a forest.
-/

namespace Stencil

open Markup

/-- The changes that a document offers. -/
inductive Operation where
  | createElement (name : String)
  | createText (value : String)
  | createComment (value : String)
  | createDoctype (value : String)
  | createFragment
  | plantMarkup (markup : String)
  | parseMarkup (markup : String)
  | setAttribute (id : NodeId) (name value : String)
  | setAttributeValue (id : NodeId) (name : String) (value : Value)
  | removeAttribute (id : NodeId) (name : String)
  | append (parent child : NodeId)
  | insertBefore (parent child reference : NodeId)
  | remove (parent child : NodeId)
  | replace (parent new old : NodeId)
  | setText (id : NodeId) (value : String)
  | setInner (id : NodeId) (markup : String)
  | release (id : NodeId)
  | copy (id : NodeId)
  | copyTree (id : NodeId)
  | clear (id : NodeId)
  | discardChildren (id : NodeId)
  | moveChildren (source target : NodeId)

namespace Operation

open Edit Document

/-- The document after an operation, whether it has succeeded or not. -/
def perform (d : Document) : Operation → Document
  | createElement name => (Document.createElement name).after d
  | createText value => (Document.createText value).after d
  | createComment value => (change fun d => d.create (.comment value)).after d
  | createDoctype value => (change fun d => d.create (.doctype value)).after d
  | createFragment => (change fun d => d.create .fragment).after d
  | plantMarkup markup => (Document.plantMarkup markup).after d
  | parseMarkup markup => (Document.parseMarkup markup).after d
  | setAttribute id name value => (Document.setAttribute id name value).after d
  | setAttributeValue id name value => (Document.setAttributeValue id name value).after d
  | removeAttribute id name => (Document.removeAttribute id name).after d
  | append parent child => (Document.append parent child).after d
  | insertBefore parent child reference => (Document.insertBefore parent child reference).after d
  | remove parent child => (Document.remove parent child).after d
  | replace parent new old => (Document.replace parent new old).after d
  | setText id value => (Document.setText id value).after d
  | setInner id markup => (Document.setInner id markup).after d
  | release id => (Document.release id).after d
  | copy id => (Document.copy id).after d
  | copyTree id => (Document.copyTree id).after d
  | clear id => (Document.clear id).after d
  | discardChildren id => (Document.discardChildren id).after d
  | moveChildren source target => (Document.moveChildren source target).after d

/-- Whether an operation inserts a fragment into itself or into a node below it. Markup,
texts and listed children are never inserted so. -/
def Entangled (d : Document) : Operation → Prop
  | append parent child => d.Holds parent ∧ d.Entangled parent child
  | insertBefore parent child reference =>
      d.Inserts parent child reference ∧ d.Entangled parent child
  | replace parent new old => d.Inserts parent new old ∧ d.Entangled parent new
  | _ => False

/-- The document after a list of operations. -/
def run (d : Document) (ops : List Operation) : Document := ops.foldl perform d

/-- No operation of a run is entangled where its turn comes. -/
def Untangled : Document → List Operation → Prop
  | _, [] => True
  | d, op :: ops => ¬op.Entangled d ∧ Untangled (op.perform d) ops

variable {d : Document}

theorem lasting_perform {P : Document → Prop} (l : Lasting P) (op : Operation) (h : P d) :
    P (op.perform d) := by
  cases op with
  | createElement name => exact l.create _ d h
  | createText value => exact l.create _ d h
  | createComment value => exact l.create _ d h
  | createDoctype value => exact l.create _ d h
  | createFragment => exact l.create _ d h
  | plantMarkup markup => exact l.plantMarkup markup d h
  | parseMarkup markup => exact l.parseMarkup markup d h
  | setAttribute id name value => exact l.setAttributeValue id name _ d h
  | setAttributeValue id name value => exact l.setAttributeValue id name value d h
  | removeAttribute id name => exact l.removeAttribute id name d h
  | append parent child => exact l.append parent child d h
  | insertBefore parent child reference => exact l.insertBefore parent child reference d h
  | remove parent child => exact l.remove parent child d h
  | replace parent new old => exact l.replace parent new old d h
  | setText id value => exact l.setText id value d h
  | setInner id markup => exact l.setInner id markup d h
  | release id => exact l.release id d h
  | copy id => exact l.copy id d h
  | copyTree id => exact l.copyTree id d h
  | clear id => exact l.clear id d h
  | discardChildren id => exact l.discardChildren id d h
  | moveChildren source target => exact l.moveChildren source target d h

/-- What no change of a slot undoes holds after every run. -/
theorem lasting_run {P : Document → Prop} (l : Lasting P) (ops : List Operation) (h : P d) :
    P (run d ops) := by
  induction ops generalizing d with
  | nil => exact h
  | cons op ops ih => exact ih (lasting_perform l op h)

/-- One operation keeps a document sound. -/
theorem sound_perform (h : d.Sound) (op : Operation) (apart : ¬op.Entangled d) :
    (op.perform d).Sound := by
  have none_twice : ∀ data : NodeData, data.attributes = [] → View.AttributesDistinct data := by
    intro data none_there
    rw [View.AttributesDistinct, none_there]
    exact List.nodup_nil
  cases op with
  | createElement name => exact keeps_create (none_twice _ rfl) d h
  | createText value => exact keeps_create (none_twice _ rfl) d h
  | createComment value => exact keeps_create (none_twice _ rfl) d h
  | createDoctype value => exact keeps_create (none_twice _ rfl) d h
  | createFragment => exact keeps_create (none_twice _ rfl) d h
  | plantMarkup markup => exact keeps_plantMarkup markup d h
  | parseMarkup markup => exact keeps_parseMarkup markup d h
  | setAttribute id name value => exact keeps_setAttributeValue id name _ d h
  | setAttributeValue id name value => exact keeps_setAttributeValue id name value d h
  | removeAttribute id name => exact keeps_removeAttribute id name d h
  | append parent child => exact h.append fun holds entangled => apart ⟨holds, entangled⟩
  | insertBefore parent child reference =>
      exact h.insertBefore fun inserts entangled => apart ⟨inserts, entangled⟩
  | remove parent child => exact keeps_remove parent child d h
  | replace parent new old => exact h.replace fun inserts entangled => apart ⟨inserts, entangled⟩
  | setText id value => exact keeps_setText id value d h
  | setInner id markup => exact keeps_setInner id markup d h
  | release id => exact keeps_release id d h
  | copy id => exact keeps_copy id d h
  | copyTree id => exact keeps_copyTree id d h
  | clear id => exact keeps_clear id d h
  | discardChildren id => exact keeps_discardChildren id d h
  | moveChildren source target => exact keeps_moveChildren source target d h

theorem sound_run (h : d.Sound) (ops : List Operation) (apart : Untangled d ops) :
    (run d ops).Sound := by
  induction ops generalizing d with
  | nil => exact h
  | cons op ops ih => exact ih (sound_perform h op apart.1) apart.2

/-- Whatever is done to a new document, its links form a forest, unless a fragment has been
put into itself or below itself. -/
theorem forest_run (name : String) (strict : Bool) (ops : List Operation)
    (apart : Untangled { name := name, strict := strict } ops) :
    (run { name := name, strict := strict } ops).view.Forest :=
  (sound_run (sound_empty name strict) ops apart).forest

/-- A fragment is emptied into an element, of which a child is replaced by a text. -/
theorem forest_run_fragment :
    Untangled { name := "page", strict := true }
        [.createFragment, .createElement "p", .createComment "c", .append ⟨0⟩ ⟨2⟩,
          .append ⟨1⟩ ⟨0⟩, .createText "t", .replace ⟨1⟩ ⟨3⟩ ⟨2⟩, .release ⟨2⟩] ∧
      (run { name := "page", strict := true }
        [.createFragment, .createElement "p", .createComment "c", .append ⟨0⟩ ⟨2⟩,
          .append ⟨1⟩ ⟨0⟩, .createText "t", .replace ⟨1⟩ ⟨3⟩ ⟨2⟩, .release ⟨2⟩]).view.Forest := by
  have apart : Untangled { name := "page", strict := true }
      [.createFragment, .createElement "p", .createComment "c", .append ⟨0⟩ ⟨2⟩,
        .append ⟨1⟩ ⟨0⟩, .createText "t", .replace ⟨1⟩ ⟨3⟩ ⟨2⟩, .release ⟨2⟩] := by
    refine ⟨id, id, id, ?_, ?_, id, ?_, id, trivial⟩
    · rintro ⟨-, ⟨n, node, fragment⟩, -⟩
      cases node
      cases fragment
    · rintro ⟨-, -, above⟩
      have same := above.eq_of_top rfl rfl
      cases same
    · rintro ⟨-, ⟨n, node, fragment⟩, -⟩
      cases node
      cases fragment
  exact ⟨apart, forest_run "page" true _ apart⟩

end Operation

end Stencil
