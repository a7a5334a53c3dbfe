import Stencil.Proofs.Document.Soundness
import Stencil.Proofs.Render.Expansion

/-! # Dressed trees

While a copied tree is wired and rendered, its nodes keep their places: markers are taken,
attributes receive values, and empty hosts receive content. What has been done so far is
the dress of the tree. A document in which the dressed tree stands keeps a part of its
view, the frame, untouched.
-/

namespace Stencil

open Markup NodeTree

/-- What has been done to the nodes of a copied tree. -/
structure Dress where
  unmarked : NodeId → Bool
  value : NodeId → String → Option Value
  content : NodeId → Option (List (NodeTree NodeId))

namespace Dress

def bare : Dress where
  unmarked _ := false
  value _ _ := none
  content _ := none

def attributes (D : Dress) (id : NodeId) (own : List (String × Value)) : List (String × Value) :=
  (own.filter fun entry => !(D.unmarked id && entry.1 == Marker.host)).map fun entry =>
    (entry.1, (D.value id entry.1).getD entry.2)

def data (D : Dress) (id : NodeId) : NodeData → NodeData
  | .element name own => .element name (D.attributes id own)
  | data => data

def children (D : Dress) (id : NodeId) (own : List NodeId) : List NodeId :=
  match D.content id with
  | some ts => ts.map label
  | none => own

/-- The labels of all content. -/
def foreign (D : Dress) (C : NodeTree NodeId) : List NodeId :=
  C.labels.flatMap fun x => labelsAll ((D.content x).getD [])

/-- A marker has been taken. -/
def unmark (D : Dress) (id : NodeId) : Dress :=
  { D with unmarked := fun x => if x = id then true else D.unmarked x }

/-- An attribute has received a value. -/
def write (D : Dress) (id : NodeId) (name : String) (value : Value) : Dress :=
  { D with value := fun x n => if x = id ∧ n = name then some value else D.value x n }

/-- A host has received content behind what it had. -/
def fill (D : Dress) (id : NodeId) (ts : List (NodeTree NodeId)) : Dress :=
  { D with content := fun x => if x = id then some ((D.content id).getD [] ++ ts) else D.content x }

mutual

/-- The tree in its dress. -/
def apply (D : Dress) : NodeTree NodeId → NodeTree NodeId
  | .node id data children => .node id (D.data id data) ((D.content id).getD (applyAll D children))

def applyAll (D : Dress) : List (NodeTree NodeId) → List (NodeTree NodeId)
  | [] => []
  | t :: ts => apply D t :: applyAll D ts

end

@[simp] theorem applyAll_eq_map (D : Dress) (ts : List (NodeTree NodeId)) :
    D.applyAll ts = ts.map D.apply := by
  induction ts with
  | nil => rfl
  | cons t ts ih => rw [applyAll, ih, List.map_cons]

@[simp] theorem label_apply (D : Dress) (t : NodeTree NodeId) : (D.apply t).label = t.label := by
  cases t
  rfl

@[simp] theorem data_bare (id : NodeId) (data : NodeData) : bare.data id data = data := by
  cases data with
  | element name own => simp [Dress.data, Dress.attributes, bare]
  | text | comment | fragment | doctype => rfl

@[simp] theorem foreign_bare (C : NodeTree NodeId) : bare.foreign C = [] := by
  simp [foreign, bare]

@[simp] theorem content_fill_self (D : Dress) (id : NodeId) (ts : List (NodeTree NodeId)) :
    (D.fill id ts).content id = some ((D.content id).getD [] ++ ts) := by
  simp [fill]

theorem content_fill_of_ne (D : Dress) {id x : NodeId} (ts : List (NodeTree NodeId)) (h : x ≠ id) :
    (D.fill id ts).content x = D.content x := by
  simp [fill, h]

theorem content_fill_cases (D : Dress) {id x : NodeId} {us ts : List (NodeTree NodeId)}
    (h : (D.fill id us).content x = some ts) :
    x = id ∧ ts = (D.content id).getD [] ++ us ∨ x ≠ id ∧ D.content x = some ts := by
  by_cases same : x = id
  · rw [same, content_fill_self] at h
    exact .inl ⟨same, (Option.some.inj h).symm⟩
  · rw [content_fill_of_ne D us same] at h
    exact .inr ⟨same, h⟩

theorem fill_fill (D : Dress) (id : NodeId) (ts us : List (NodeTree NodeId)) :
    (D.fill id ts).fill id us = D.fill id (ts ++ us) := by
  simp only [fill, if_true, Option.getD_some, List.append_assoc, Dress.mk.injEq, true_and]
  funext x
  split <;> rfl

/-- New content comes to the foreign labels. -/
theorem foreign_fill (D : Dress) {C : NodeTree NodeId} {id : NodeId} (nodup : C.labels.Nodup)
    (mem : id ∈ C.labels) (ts : List (NodeTree NodeId)) :
    ((D.fill id ts).foreign C).Perm (D.foreign C ++ labelsAll ts) := by
  unfold foreign
  generalize C.labels = ids at nodup mem
  induction ids with
  | nil => cases mem
  | cons x ids ih =>
      obtain ⟨out, rest⟩ := List.nodup_cons.1 nodup
      rw [List.flatMap_cons, List.flatMap_cons]
      by_cases same : x = id
      · subst same
        have others : ids.flatMap (fun y => labelsAll (((D.fill x ts).content y).getD [])) =
            ids.flatMap fun y => labelsAll ((D.content y).getD []) :=
          List.flatMap_congr fun y hy => by
            have other : y ≠ x := by
              rintro rfl
              exact out hy
            rw [content_fill_of_ne D ts other]
        rw [others, content_fill_self, Option.getD_some, labelsAll_append, List.append_assoc,
          List.append_assoc]
        exact List.perm_append_comm.append_left _
      · have further := ih rest ((List.mem_cons.1 mem).resolve_left fun h => same h.symm)
        rw [content_fill_of_ne D ts same, List.append_assoc]
        exact further.append_left _

end Dress

/-- Templates can be rendered in a document: its slots are accounted for, and it mends flaws
of markup. -/
structure Document.Ready (d : Document) : Prop where
  accounted : d.Accounted
  lenient : d.strict = false

theorem Document.lasting_ready : Lasting Ready where
  allocate n h := by
    refine ⟨(h.accounted.allocate n).2.2, ?_⟩
    simp only [Document.allocate]
    split <;> exact h.lenient
  modify id f h := ⟨h.accounted.modify id f, h.lenient⟩
  vacate? found h := by
    refine ⟨h.accounted.vacate? found, ?_⟩
    obtain ⟨n, -, same⟩ := Option.map_eq_some_iff.1 found
    simp only [Prod.mk.injEq] at same
    rw [← same.2]
    exact h.lenient

theorem Document.Planted.ready {ι : Type} {d d' : Document} {p : Option NodeId} {t : NodeTree ι}
    {s : NodeTree NodeId} (h : Planted d d' p t s) (ready : d.Ready) : d'.Ready :=
  ⟨h.trades.accounted, h.trades.strict.trans ready.lenient⟩

/-- A tree stands in its dress in a document, beside other trees without parents. All of it
lies outside the frame, which is there as well. -/
structure Worn (d : Document) (w : View) (D : Dress) (C : NodeTree NodeId)
    (rest : List (NodeTree NodeId)) : Prop where
  ready : d.Ready
  frame : ∀ {x n}, w x = some n → d.view x = some n
  nodup : C.labels.Nodup
  own : ∀ x ∈ C.labels, w x = none
  record : ∀ {q s}, Within none C q s → d.view s.label = some {
    data := D.data s.label s.data
    parent := q
    children := D.children s.label (s.children.map label) }
  content : ∀ {x ts}, x ∈ C.labels → D.content x = some ts → d.view.StandAll (some x) ts
  /-- Only nodes without children of their own receive content. -/
  empty : ∀ {q s}, Within none C q s → D.content s.label ≠ none → s.children = []
  fits : C.Fits
  solid : ∀ {x ts}, x ∈ C.labels → D.content x = some ts → ∀ t ∈ ts, t.data ≠ .fragment
  others : d.view.StandAll none rest
  alien : ∀ x ∈ D.foreign C ++ labelsAll rest, x ∉ C.labels ∧ w x = none
  apart : (D.foreign C ++ labelsAll rest).Nodup

namespace Worn

variable {d d' : Document} {w : View} {D : Dress} {C : NodeTree NodeId}
  {rest : List (NodeTree NodeId)}

theorem live (h : Worn d w D C rest) {x : NodeId} (mem : x ∈ C.labels) : d.view x ≠ none := by
  obtain ⟨q, s, inside, rfl⟩ := exists_within none C x mem
  rw [h.record inside]
  simp

theorem mem_foreign {x : NodeId} (mem : x ∈ C.labels) {ts : List (NodeTree NodeId)}
    (content : D.content x = some ts) {y : NodeId} (hy : y ∈ labelsAll ts) : y ∈ D.foreign C :=
  List.mem_flatMap.2 ⟨x, mem, by rwa [content]⟩

theorem live_foreign (h : Worn d w D C rest) {x : NodeId} (mem : x ∈ D.foreign C ++ labelsAll rest) :
    d.view x ≠ none := by
  have stands : ∀ {p : Option NodeId} {ts : List (NodeTree NodeId)}, d.view.StandAll p ts →
      x ∈ labelsAll ts → d.view x ≠ none := by
    intro p ts all hx
    obtain ⟨t, listed, q, s, inside, rfl⟩ := exists_withinAll p ts x hx
    exact (View.standAll_iff.1 all t listed).live inside.label_mem
  rcases List.mem_append.1 mem with mem | mem
  · obtain ⟨y, own, hx⟩ := List.mem_flatMap.1 mem
    cases content : D.content y with
    | none =>
        rw [content] at hx
        cases hx
    | some ts =>
        rw [content] at hx
        exact stands (h.content own content) hx
  · exact stands h.others mem

/-- A document that has all nodes of another wears what that wears. -/
theorem keep (h : Worn d w D C rest) (ready : d'.Ready)
    (keeps : ∀ {x n}, d.view x = some n → d'.view x = some n) : Worn d' w D C rest where
  ready := ready
  frame there := keeps (h.frame there)
  nodup := h.nodup
  own := h.own
  record inside := keeps (h.record inside)
  content mem some_content := View.standAll_iff.2 fun t listed =>
    (View.standAll_iff.1 (h.content mem some_content) t listed).mono fun _ _ => keeps
  empty := h.empty
  fits := h.fits
  solid := h.solid
  others := View.standAll_iff.2 fun t listed =>
    (View.standAll_iff.1 h.others t listed).mono fun _ _ => keeps
  alien := h.alien
  apart := h.apart

/-- The frame may be any part of the view that lies outside. -/
theorem reframe {u : View} (h : Worn d w D C rest) (frame : ∀ {x n}, u x = some n → w x = some n) :
    Worn d u D C rest where
  ready := h.ready
  frame there := h.frame (frame there)
  nodup := h.nodup
  own x mem := by
    cases there : u x with
    | none => rfl
    | some n =>
        have outside := h.own x mem
        rw [frame there] at outside
        cases outside
  record := h.record
  content := h.content
  empty := h.empty
  fits := h.fits
  solid := h.solid
  others := h.others
  alien x mem := by
    refine ⟨(h.alien x mem).1, ?_⟩
    cases there : u x with
    | none => rfl
    | some n =>
        have outside := (h.alien x mem).2
        rw [frame there] at outside
        cases outside
  apart := h.apart

/-- A tree that has just been planted wears nothing. -/
theorem of_planted {ι : Type} {t : NodeTree ι} (ready : d.Ready) (fits : t.Fits)
    (frame : ∀ {x n}, w x = some n → d.view x = some n) (planted : Document.Planted d d' none t C) :
    Worn d' w .bare C [] where
  ready := planted.ready ready
  frame there := planted.trades.kept (frame there) (by simp)
  nodup := planted.nodup
  own x mem := by
    cases there : w x with
    | none => rfl
    | some n =>
        have fresh := planted.trades.fresh x mem (by simp)
        rw [frame there] at fresh
        cases fresh
  record inside := by
    rw [Dress.data_bare]
    exact (planted.stands.within inside).top
  content _ some_content := by cases some_content
  empty _ some_content := (some_content rfl).elim
  fits := (fits_shape C).1 (planted.shape ▸ (fits_shape t).2 fits)
  solid _ some_content := by cases some_content
  others := trivial
  alien x mem := by simp at mem
  apart := by simp

/-! ## Other trees beside -/

/-- A new tree stands beside. -/
theorem join {s : NodeTree NodeId} (h : Worn d w D C rest) (ready : d'.Ready)
    (keeps : ∀ {x n}, d.view x = some n → d'.view x = some n) (stands : d'.view.Stands none s)
    (nodup : s.labels.Nodup) (fresh : ∀ x ∈ s.labels, d.view x = none) :
    Worn d' w D C (s :: rest) := by
  have kept : Worn d' w D C rest := h.keep ready keeps
  have order : (D.foreign C ++ labelsAll (s :: rest)).Perm
      (s.labels ++ (D.foreign C ++ labelsAll rest)) := by
    rw [labelsAll_cons]
    exact List.perm_append_comm_assoc ..
  exact { kept with
    others := ⟨stands, kept.others⟩
    alien := by
      intro x mem
      rcases List.mem_append.1 (order.mem_iff.1 mem) with mem | mem
      · refine ⟨fun own => h.live own (fresh x mem), ?_⟩
        cases there : w x with
        | none => rfl
        | some n =>
            have empty := fresh x mem
            rw [h.frame there] at empty
            cases empty
      · exact h.alien x mem
    apart := by
      refine order.nodup_iff.2 (List.nodup_append.2 ⟨nodup, h.apart, ?_⟩)
      rintro x hx _ hy rfl
      exact h.live_foreign hy (fresh x hx) }

theorem plant {ι : Type} {t : NodeTree ι} {s : NodeTree NodeId} (h : Worn d w D C rest)
    (planted : Document.Planted d d' none t s) : Worn d' w D C (s :: rest) :=
  h.join (planted.ready h.ready) (fun there => planted.trades.kept there (by simp))
    planted.stands planted.nodup fun x mem => planted.trades.fresh x mem (by simp)

/-- A tree that stood beside has been given up. -/
theorem drop {t : NodeTree NodeId} (h : Worn d w D C (t :: rest)) (ready : d'.Ready)
    (frame : ∀ x, x ∉ t.labels → d'.view x = d.view x) :
    Worn d' w D C rest := by
  have order : (D.foreign C ++ labelsAll (t :: rest)).Perm
      (t.labels ++ (D.foreign C ++ labelsAll rest)) := by
    rw [labelsAll_cons]
    exact List.perm_append_comm_assoc ..
  obtain ⟨-, apart, away⟩ := List.nodup_append.1 (order.nodup_iff.1 h.apart)
  have alien : ∀ x ∈ t.labels, x ∉ C.labels ∧ w x = none := fun x mem =>
    h.alien x (order.mem_iff.2 (List.mem_append_left _ mem))
  have own : ∀ x ∈ C.labels, d'.view x = d.view x := fun x mem =>
    frame x fun inside => (alien x inside).1 mem
  have beside : ∀ x ∈ D.foreign C ++ labelsAll rest, d'.view x = d.view x := fun x mem =>
    frame x fun inside => away x inside x mem rfl
  exact {
    ready := ready
    frame := fun {x n} there => by
      rw [frame x fun inside => ?_]
      · exact h.frame there
      · rw [(alien x inside).2] at there
        cases there
    nodup := h.nodup
    own := h.own
    record := fun inside => by
      rw [own _ inside.label_mem]
      exact h.record inside
    content := fun {x ts} mem some_content => View.standAll_congr _ ts (fun y hy =>
      beside y (List.mem_append_left _ (mem_foreign mem some_content hy))) (h.content mem some_content)
    empty := h.empty
    fits := h.fits
    solid := h.solid
    others := View.standAll_congr _ rest (fun y hy => beside y (List.mem_append_right _ hy)) h.others.2
    alien := fun x mem => h.alien x (order.mem_iff.2 (List.mem_append_right _ mem))
    apart := apart }

/-! ## Changes of one node -/

/-- The data of a node have changed as its dress says. -/
theorem redata {E : Dress} {q : Option NodeId} {s : NodeTree NodeId} (h : Worn d w D C rest)
    (inside : Within none C q s) {f : Node → Node}
    (own : ∀ n, n.data = D.data s.label s.data → f n = { n with data := E.data s.label s.data })
    (off : ∀ x, x ≠ s.label → ∀ data, E.data x data = D.data x data) (content : E.content = D.content) :
    Worn (d.modify s.label f) w E C rest := by
  have view := d.view_modify s.label f
  have others : ∀ x, x ≠ s.label → (d.modify s.label f).view x = d.view x := fun x hx => by
    rw [view, View.alter_of_ne _ _ hx]
  have foreign : E.foreign C = D.foreign C := by rw [Dress.foreign, content, Dress.foreign]
  have elsewhere : ∀ x ∈ D.foreign C ++ labelsAll rest, (d.modify s.label f).view x = d.view x :=
    fun x mem => others x fun same => (h.alien x mem).1 (same ▸ inside.label_mem)
  exact {
    ready := Document.lasting_ready.modify s.label f h.ready
    frame := fun {x n} there => by
      rw [others x fun same => ?_]
      · exact h.frame there
      · rw [same, h.own _ inside.label_mem] at there
        cases there
    nodup := h.nodup
    own := h.own
    record := fun {r u} within => by
      by_cases same : u.label = s.label
      · obtain ⟨rfl, rfl⟩ := within_unique C none h.nodup within inside same
        rw [view, View.alter_self f (h.record within), own _ rfl]
        simp only [Dress.children, content]
      · rw [others _ same, off _ same, Dress.children, content]
        exact h.record within
    content := fun {x ts} mem some_content => by
      rw [content] at some_content
      exact View.standAll_congr _ ts (fun y hy =>
        elsewhere y (List.mem_append_left _ (mem_foreign mem some_content hy)))
        (h.content mem some_content)
    empty := fun within some_content => h.empty within (content ▸ some_content)
    fits := h.fits
    solid := fun mem some_content => h.solid mem (content ▸ some_content)
    others := View.standAll_congr _ rest (fun y hy => elsewhere y (List.mem_append_right _ hy)) h.others
    alien := fun x mem => h.alien x (foreign ▸ mem)
    apart := foreign ▸ h.apart }

/-! ## The dressed tree -/

mutual

theorem stands_within (h : Worn d w D C rest) : (s : NodeTree NodeId) → (q : Option NodeId) →
    Within none C q s → d.view.Stands q (D.apply s)
  | node id data children, q, inside => by
      have record := h.record inside
      have mem := inside.label_mem
      rw [Dress.apply]
      refine ⟨record.trans ?_, ?_⟩
      · simp only [Dress.children, NodeTree.children, label, NodeTree.data]
        cases D.content id with
        | none => simp [Function.comp_def]
        | some ts => rfl
      · cases content : D.content id with
        | none => exact standAll_within h children (some id) fun t listed => inside.child listed
        | some ts => exact h.content mem content

theorem standAll_within (h : Worn d w D C rest) : (ts : List (NodeTree NodeId)) →
    (q : Option NodeId) → (∀ t ∈ ts, Within none C q t) → d.view.StandAll q (D.applyAll ts)
  | [], _, _ => trivial
  | t :: ts, q, inside =>
      ⟨stands_within h t q (inside t (by simp)),
        standAll_within h ts q fun u listed => inside u (by simp [listed])⟩

end

/-- The dressed tree is there. -/
theorem stands (h : Worn d w D C rest) : d.view.Stands none (D.apply C) :=
  stands_within h C none .self

mutual

theorem labels_within (h : Worn d w D C rest) : (s : NodeTree NodeId) → (q : Option NodeId) →
    Within none C q s → (D.apply s).labels.Perm (s.labels ++ D.foreign s)
  | node id data children, q, inside => by
      have below := labelsAll_within h children (some id) fun t listed => inside.child listed
      rw [Dress.apply, Dress.foreign, labels_node, labels_node, List.flatMap_cons]
      cases content : D.content id with
      | none => simpa using below
      | some ts =>
          have empty : children = [] := h.empty inside (by
            rw [show D.content (node id data children).label = some ts from content]
            simp)
          simp [empty]

theorem labelsAll_within (h : Worn d w D C rest) : (ts : List (NodeTree NodeId)) →
    (q : Option NodeId) → (∀ t ∈ ts, Within none C q t) →
    (labelsAll (D.applyAll ts)).Perm
      (labelsAll ts ++ (labelsAll ts).flatMap fun x => labelsAll ((D.content x).getD []))
  | [], _, _ => .refl _
  | t :: ts, q, inside => by
      have first := labels_within h t q (inside t (by simp))
      have others := labelsAll_within h ts q fun u listed => inside u (by simp [listed])
      rw [Dress.applyAll, labelsAll_cons, labelsAll_cons, List.flatMap_append]
      refine (first.append others).trans ?_
      rw [Dress.foreign, List.append_assoc, List.append_assoc]
      exact (List.perm_append_comm_assoc ..).append_left _

end

theorem nodup_apply (h : Worn d w D C rest) : (D.apply C).labels.Nodup := by
  refine (labels_within h C none .self).nodup_iff.2 (List.nodup_append.2 ⟨h.nodup, ?_, ?_⟩)
  · exact (List.nodup_append.1 h.apart).1
  · rintro x own _ mem rfl
    exact (h.alien x (List.mem_append_left _ mem)).1 own

/-- The dressed tree lies outside the frame. -/
theorem outside (h : Worn d w D C rest) {x : NodeId} (mem : x ∈ (D.apply C).labels) :
    w x = none := by
  rcases List.mem_append.1 ((labels_within h C none .self).mem_iff.1 mem) with own | foreign
  · exact h.own x own
  · exact (h.alien x (List.mem_append_left _ foreign)).2

theorem solid_children (h : Worn d w D C rest) :
    ∀ t ∈ (D.apply C).children, t.data ≠ .fragment := by
  have solid := @h.solid
  have fits := h.fits
  cases C with
  | node id data children =>
      intro t listed
      rw [Dress.apply, NodeTree.children, Dress.applyAll_eq_map] at listed
      cases content : D.content id with
      | some ts =>
          rw [content] at listed
          exact solid (by simp) content t listed
      | none =>
          rw [content] at listed
          obtain ⟨u, mem, rfl⟩ := List.mem_map.1 listed
          have own := (fitAll_iff.1 fits.2.2 u mem).1
          cases u with
          | node inner data _ =>
              cases data with
              | fragment => exact (own rfl).elim
              | element | text | comment | doctype => nofun

/-- A tree dressed in a larger document stands beside. -/
theorem beside {E : Dress} {B : NodeTree NodeId} (h : Worn d w D C rest)
    (larger : Worn d' d.view E B []) : Worn d' w D C (E.apply B :: rest) :=
  h.join larger.ready larger.frame larger.stands larger.nodup_apply fun _ => larger.outside

end Worn

end Stencil
