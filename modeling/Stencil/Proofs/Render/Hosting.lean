import Stencil.Proofs.Document.Content
import Stencil.Proofs.Render.Dressing

/-! # Hosting

Trees that stand beside a dressed one become the content of one of its empty elements: a
whole tree, the children of a fragment, or the children of a tree one after the other.
-/

namespace Stencil

open Markup NodeTree

namespace View

variable {v : View} {p q : Option NodeId}

theorem adopt_off {parent x : NodeId} {moved : List NodeId} (out : x ∉ moved) :
    adopt parent moved v x = v x := by
  simp [adopt, out]

/-- Trees whose tops, and no other nodes, have been adopted stand below their new parent. -/
theorem standAll_adopt {us : List (NodeTree NodeId)} (h : v.StandAll p us)
    (nodup : (labelsAll us).Nodup) (parent : NodeId) :
    (adopt parent (us.map label) v).StandAll (some parent) us := by
  refine standAll_reparent h nodup (fun x top n node => ?_) fun x _ out => adopt_off out
  rw [adopt_apply node, if_pos top]

end View

/-- An element of a tree without children of its own. -/
structure Hollow (C s : NodeTree NodeId) : Prop where
  inside : ∃ q, Within none C q s
  element : s.data.isElement = true
  empty : s.children = []

/-- Trees that stood beside a dressed one, some of the rest, are below one of its elements, and
nothing else has changed. -/
structure Adopts (d d' : Document) (g : NodeId) (rest us rest' : List (NodeTree NodeId)) : Prop where
  ready : d'.Ready
  order : (labelsAll rest).Perm (labelsAll us ++ labelsAll rest')
  frame : ∀ x, x ∉ labelsAll rest → x ≠ g → d'.view x = d.view x
  host : ∀ n, d.view g = some n →
    d'.view g = some { n with children := n.children ++ us.map label }
  moved : d'.view.StandAll (some g) us
  others : d'.view.StandAll none rest'
  solid : ∀ t ∈ us, t.data ≠ .fragment

namespace Worn

open Document Edit

variable {d d' : Document} {w : View} {D : Dress} {C s : NodeTree NodeId}
  {rest rest' us : List (NodeTree NodeId)}

theorem rooted (h : Worn d w D C rest) {q : Option NodeId} (inside : Within none C q s) :
    d.view.Rooted s.label := by
  induction inside with
  | self => exact .top (h.record .self) rfl
  | child above mem ih => exact .under (h.record (above.child mem)) rfl ih

/-- Only nodes of the tree are above its nodes. -/
theorem mem_of_above (h : Worn d w D C rest) {q : Option NodeId} (inside : Within none C q s)
    {a : NodeId} (above : d.view.Above a s.label) : a ∈ C.labels := by
  induction inside with
  | self =>
      rw [above.eq_of_top (h.record .self) rfl]
      exact label_mem_labels C
  | @child q id data children c outer mem ih =>
      have below := outer.child mem
      by_cases same : a = c.label
      · rw [same]
        exact below.label_mem
      · exact ih (above.of_parent (h.record below) rfl same)

theorem host (h : Worn d w D C rest) (hollow : Hollow C s) :
    ∃ n, d.view s.label = some n ∧ n.data.isContainer = true := by
  obtain ⟨q, inside⟩ := hollow.inside
  refine ⟨_, h.record inside, ?_⟩
  have element := hollow.element
  cases data : s.data with
  | element name own => rfl
  | text | comment | fragment | doctype =>
      rw [data] at element
      cases element

theorem label_not_mem (h : Worn d w D C rest) (hollow : Hollow C s) :
    s.label ∉ labelsAll rest := fun mem => by
  obtain ⟨q, inside⟩ := hollow.inside
  exact (h.alien _ (List.mem_append_right _ mem)).1 inside.label_mem

/-- The records of the nodes of the tree, when trees have been adopted. -/
theorem record_adopt (h : Worn d w D C rest) (hollow : Hollow C s)
    (adopts : Adopts d d' s.label rest us rest') {r : Option NodeId} {u : NodeTree NodeId}
    (within : Within none C r u) :
    d'.view u.label = some {
      data := D.data u.label u.data
      parent := r
      children := (D.fill s.label us).children u.label (u.children.map label) } := by
  obtain ⟨q, inside⟩ := hollow.inside
  by_cases same : u.label = s.label
  · obtain ⟨rfl, rfl⟩ := within_unique C none h.nodup within inside same
    have added : (D.fill u.label us).children u.label (u.children.map label) =
        D.children u.label (u.children.map label) ++ us.map label := by
      rw [Dress.children, Dress.content_fill_self, Dress.children, hollow.empty]
      cases D.content u.label <;> simp
    rw [adopts.host _ (h.record within), added]
  · have out : u.label ∉ labelsAll rest := fun mem =>
      (h.alien _ (List.mem_append_right _ mem)).1 within.label_mem
    rw [adopts.frame _ out same, h.record within, Dress.children, Dress.children,
      Dress.content_fill_of_ne _ _ same]

/-- Content that was there before trees have been adopted is there still. -/
theorem content_adopt (h : Worn d w D C rest) (hollow : Hollow C s)
    (adopts : Adopts d d' s.label rest us rest') {y : NodeId} {ts : List (NodeTree NodeId)}
    (mem : y ∈ C.labels) (content : D.content y = some ts) : d'.view.StandAll (some y) ts := by
  obtain ⟨q, inside⟩ := hollow.inside
  obtain ⟨-, -, away⟩ := List.nodup_append.1 h.apart
  refine View.standAll_congr _ ts (fun z hz => ?_) (h.content mem content)
  have foreign := mem_foreign mem content hz
  refine adopts.frame z (fun beside => away z foreign z beside rfl) ?_
  rintro rfl
  exact (h.alien _ (List.mem_append_left _ foreign)).1 inside.label_mem

/-- Trees that stood beside have become content of a hollow element. -/
theorem adopt (h : Worn d w D C rest) (hollow : Hollow C s)
    (adopts : Adopts d d' s.label rest us rest') : Worn d' w (D.fill s.label us) C rest' := by
  obtain ⟨q, inside⟩ := hollow.inside
  have own := inside.label_mem
  have whole : ((D.fill s.label us).foreign C ++ labelsAll rest').Perm
      (D.foreign C ++ labelsAll rest) := by
    refine ((D.foreign_fill h.nodup own us).append_right _).trans ?_
    rw [List.append_assoc]
    exact adopts.order.symm.append_left _
  exact {
    ready := adopts.ready
    frame := fun {x n} there => by
      rw [adopts.frame x (fun mem => ?_) fun same => ?_]
      · exact h.frame there
      · rw [(h.alien x (List.mem_append_right _ mem)).2] at there
        cases there
      · rw [same, h.own _ own] at there
        cases there
    nodup := h.nodup
    own := h.own
    record := h.record_adopt hollow adopts
    content := fun {x ts} mem content => by
      rcases D.content_fill_cases content with ⟨rfl, rfl⟩ | ⟨-, old⟩
      · refine View.standAll_append.2 ⟨?_, adopts.moved⟩
        cases old : D.content s.label with
        | none => trivial
        | some ts => exact h.content_adopt hollow adopts own old
      · exact h.content_adopt hollow adopts mem old
    empty := fun {r u} within content => by
      by_cases same : u.label = s.label
      · obtain ⟨rfl, rfl⟩ := within_unique C none h.nodup within inside same
        exact hollow.empty
      · rw [Dress.content_fill_of_ne _ _ same] at content
        exact h.empty within content
    fits := h.fits
    solid := fun {x ts} mem content t listed => by
      rcases D.content_fill_cases content with ⟨rfl, rfl⟩ | ⟨-, old⟩
      · rcases List.mem_append.1 listed with before | new
        · cases old : D.content s.label with
          | none =>
              rw [old] at before
              cases before
          | some ts =>
              rw [old] at before
              exact h.solid own old t before
        · exact adopts.solid t new
      · exact h.solid mem old t listed
    others := adopts.others
    alien := fun x mem => h.alien x (whole.mem_iff.1 mem)
    apart := whole.nodup_iff.2 h.apart }

/-- Trees are adopted by an edit of what was beside and of the element. -/
theorem adopts_of_view (h : Worn d w D C rest) (hollow : Hollow C s) {p : Option NodeId} {v₁ : View}
    (order : (labelsAll rest).Perm (labelsAll us ++ labelsAll rest'))
    (off : ∀ x, x ∉ labelsAll rest → v₁ x = d.view x) (moved : v₁.StandAll p us)
    (others : v₁.StandAll none rest') (solid : ∀ t ∈ us, t.data ≠ .fragment) (ready : d'.Ready)
    (view : d'.view = View.alter s.label (fun n => { n with children := n.children ++ us.map label })
      (View.adopt s.label (us.map label) v₁)) : Adopts d d' s.label rest us rest' := by
  have alone := h.label_not_mem hollow
  have tops : ∀ x ∈ us.map label, x ∈ labelsAll us := fun x =>
    ((map_label_sublist us).subset ·)
  have from_us : ∀ x ∈ labelsAll us, x ∈ labelsAll rest := fun x mem =>
    order.mem_iff.2 (List.mem_append_left _ mem)
  have from_rest : ∀ x ∈ labelsAll rest', x ∈ labelsAll rest := fun x mem =>
    order.mem_iff.2 (List.mem_append_right _ mem)
  have below : ∀ x, x ≠ s.label → d'.view x = View.adopt s.label (us.map label) v₁ x :=
    fun x other => by rw [view, View.alter_of_ne _ _ other]
  obtain ⟨-, apart, -⟩ := List.nodup_append.1 h.apart
  obtain ⟨nodup, -, split⟩ := List.nodup_append.1 (order.nodup_iff.1 apart)
  exact {
    ready := ready
    order := order
    frame := fun x out other => by
      rw [below x other, View.adopt_off fun mem => out (from_us x (tops x mem)), off x out]
    host := fun n node => by
      have unmoved : View.adopt s.label (us.map label) v₁ s.label = v₁ s.label :=
        View.adopt_off fun mem => alone (from_us _ (tops _ mem))
      rw [view, View.alter_self _ (unmoved.trans ((off _ alone).trans node))]
    moved := View.standAll_congr _ us (fun y hy => below y fun same =>
      alone (same ▸ from_us y hy)) (View.standAll_adopt moved nodup s.label)
    others := View.standAll_congr _ rest' (fun y hy => by
      rw [below y fun same => alone (same ▸ from_rest y hy),
        View.adopt_off fun mem => split y (tops y mem) y hy rfl]) others
    solid := solid }

/-! ## What edits put into a hollow element -/

/-- Nothing has been put there. -/
theorem fill_nothing (h : Worn d w D C rest) (hollow : Hollow C s) :
    Worn d w (D.fill s.label []) C rest :=
  h.adopt hollow {
    ready := h.ready
    order := .refl _
    frame := fun _ _ _ => rfl
    host := fun n node => by rw [node, List.map_nil, List.append_nil]
    moved := trivial
    others := h.others
    solid := by simp }

/-- Appending what has been taken from beside. -/
theorem append_taken (h : Worn d w D C rest) (hollow : Hollow C s) {p : Option NodeId}
    {us rest' : List (NodeTree NodeId)} {v₁ : View} {c : NodeId} {d₁ : Document}
    (take : takeFor s.label c d = .ok (us.map label) d₁)
    (view : d₁.view = View.adopt s.label (us.map label) v₁)
    (order : (labelsAll rest).Perm (labelsAll us ++ labelsAll rest'))
    (off : ∀ x, x ∉ labelsAll rest → v₁ x = d.view x) (moved : v₁.StandAll p us)
    (others : v₁.StandAll none rest') (solid : ∀ t ∈ us, t.data ≠ .fragment) :
    ∃ d', append s.label c d = .ok () d' ∧ Worn d' w (D.fill s.label us) C rest' := by
  obtain ⟨n, node, -⟩ := h.host hollow
  have alone := h.label_not_mem hollow
  have out : s.label ∉ us.map label := fun mem =>
    alone (order.mem_iff.2 (List.mem_append_left _ ((map_label_sublist us).subset mem)))
  have there : d₁.view s.label = some n := by
    rw [view, View.adopt_off out, off _ alone, node]
  obtain ⟨d', last, view'⟩ := modifyNode_view
    (fun n => { n with children := n.children ++ us.map label }) there
  have run : append s.label c d = .ok () d' := by
    unfold append
    rw [bind_ok take, last]
  have ready := lasting_ready.append s.label c d h.ready
  rw [after_ok run] at ready
  exact ⟨d', run, h.adopt hollow
    (h.adopts_of_view hollow order off moved others solid ready (by rw [view', view]))⟩

theorem append_solid {t : NodeTree NodeId} (h : Worn d w D C (t :: rest)) (hollow : Hollow C s)
    (solid : t.data ≠ .fragment) :
    ∃ d', append s.label t.label d = .ok () d' ∧ Worn d' w (D.fill s.label [t]) C rest := by
  obtain ⟨q, inside⟩ := hollow.inside
  obtain ⟨n, node, container⟩ := h.host hollow
  have top := h.others.1.top
  have apart : ¬d.view.Above t.label s.label := fun above =>
    (h.alien t.label (List.mem_append_right _ (List.mem_append_left _ (label_mem_labels t)))).1
      (h.mem_of_above inside above)
  obtain ⟨d₁, take, view⟩ := takeFor_solid node container top solid (h.rooted inside) apart
    (detach_root top rfl) top
  have moved : d.view.StandAll none [t] := ⟨h.others.1, trivial⟩
  exact h.append_taken hollow (show takeFor _ _ _ = .ok ([t].map label) _ from take) view (by simp)
    (fun _ _ => rfl) moved h.others.2 (by simpa using solid)

theorem append_fragment {f : NodeId} {us : List (NodeTree NodeId)}
    (h : Worn d w D C (node f .fragment us :: rest)) (hollow : Hollow C s)
    (solid : ∀ t ∈ us, t.data ≠ .fragment) :
    ∃ d', append s.label f d = .ok () d' ∧
      Worn d' w (D.fill s.label us) C (node f .fragment [] :: rest) := by
  obtain ⟨m, host, container⟩ := h.host hollow
  obtain ⟨top, below⟩ := h.others.1
  obtain ⟨-, nodup, -⟩ := List.nodup_append.1 h.apart
  obtain ⟨out, -⟩ := List.nodup_cons.1 nodup
  have live : ∀ x ∈ us.map label, d.view x ≠ none := by
    intro x mem
    obtain ⟨t, listed, rfl⟩ := List.mem_map.1 mem
    rw [(View.standAll_iff.1 below t listed).top]
    simp
  obtain ⟨d₁, take, view⟩ := takeFor_fragment host container top rfl live
  have still : ∀ x, x ≠ f → View.alter f (fun n => { n with children := [] }) d.view x = d.view x :=
    fun x other => View.alter_of_ne _ _ other
  refine h.append_taken hollow (p := some f) take view ?_ (fun x hx => still x ?_) ?_
    ⟨⟨?_, trivial⟩, ?_⟩ solid
  · simpa using List.perm_middle.symm
  · rintro rfl
    exact hx (by simp)
  · refine View.standAll_congr _ us (fun x hx => still x ?_) below
    rintro rfl
    exact out (List.mem_append_left _ hx)
  · exact View.alter_self _ top
  · refine View.standAll_congr _ rest (fun x hx => still x ?_) h.others.2
    rintro rfl
    exact out (List.mem_append_right _ hx)

/-- Taking the first child of a tree beside. -/
theorem append_child {r : NodeId} {data : NodeData} {c : NodeTree NodeId}
    {cs : List (NodeTree NodeId)} (h : Worn d w D C (node r data (c :: cs) :: rest))
    (hollow : Hollow C s) (solid : c.data ≠ .fragment) :
    ∃ d', append s.label c.label d = .ok () d' ∧
      Worn d' w (D.fill s.label [c]) C (node r data cs :: rest) := by
  obtain ⟨q, inside⟩ := hollow.inside
  obtain ⟨m, host, container⟩ := h.host hollow
  obtain ⟨top, first, others⟩ := h.others.1
  obtain ⟨-, nodup, -⟩ := List.nodup_append.1 h.apart
  have apart : ¬d.view.Above c.label s.label := fun above =>
    (h.alien c.label (List.mem_append_right _ (List.mem_append_left _
      (List.mem_cons_of_mem r (List.mem_append_left _ (label_mem_labels c)))))).1
        (h.mem_of_above inside above)
  have away : r ∉ c.labels ∧ r ∉ labelsAll cs ∧ r ∉ labelsAll rest ∧ c.labels.Nodup ∧
      (∀ x ∈ c.labels, x ∉ labelsAll cs ∧ x ∉ labelsAll rest) := by
    simp only [labelsAll_cons, labels_node, List.cons_append, List.nodup_cons, List.mem_append,
      List.nodup_append, not_or] at nodup
    obtain ⟨⟨⟨rc, rcs⟩, rrest⟩, ⟨hc, -, ccs⟩, -, crest⟩ := nodup
    exact ⟨rc, rcs, rrest, hc, fun x hx =>
      ⟨fun mem => ccs x hx x mem rfl, fun mem => crest x (.inl hx) x mem rfl⟩⟩
  obtain ⟨rc, rcs, rrest, hc, apart_c⟩ := away
  have ne : c.label ≠ r := fun same => rc (same ▸ label_mem_labels c)
  obtain ⟨d₁, detached, view₁⟩ := detach_child first.top rfl top
  have still : ∀ x, x ≠ c.label → x ≠ r → d₁.view x = d.view x := fun x hx hr => by
    rw [view₁, View.alter_of_ne _ _ hx, View.alter_of_ne _ _ hr]
  have taken : d₁.view c.label = some { data := c.data, parent := none, children := c.children.map label } := by
    rw [view₁]
    exact View.alter_self _ ((View.alter_of_ne _ _ ne).trans first.top)
  have left : d₁.view r = some { data := data, parent := none, children := cs.map label } := by
    have remaining : (c.label :: cs.map label).filter (· != c.label) = cs.map label := by
      rw [List.filter_cons_of_neg (by simp)]
      refine List.filter_eq_self.2 fun x mem => ?_
      have out := (apart_c c.label (label_mem_labels c)).1
      rw [bne_iff_ne]
      rintro rfl
      exact out ((map_label_sublist cs).subset mem)
    rw [view₁, View.alter_of_ne _ _ ne.symm, View.alter_self _ top]
    simp only [List.map_cons, remaining]
  obtain ⟨d₂, take, view⟩ := takeFor_solid host container first.top solid (h.rooted inside) apart
    detached taken
  have order : (labelsAll (node r data (c :: cs) :: rest)).Perm
      (labelsAll [c] ++ labelsAll (node r data cs :: rest)) := by
    simpa using List.perm_middle.symm
  refine h.append_taken hollow (p := none) (show takeFor _ _ _ = .ok ([c].map label) _ from take) view order
    (fun x hx => still x ?_ ?_) ⟨?_, trivial⟩ ⟨⟨left, ?_⟩, ?_⟩ (by simpa using solid)
  · rintro rfl
    exact hx (by simp [label_mem_labels])
  · rintro rfl
    exact hx (by simp)
  · cases c with
    | node id own children =>
        obtain ⟨fresh, -⟩ := List.nodup_cons.1 hc
        refine ⟨taken, View.standAll_congr _ children (fun x hx => still x ?_ ?_) first.2⟩
        · rintro rfl
          exact fresh hx
        · rintro rfl
          exact rc (List.mem_cons_of_mem _ hx)
  · refine View.standAll_congr _ cs (fun x hx => still x ?_ ?_) others
    · rintro rfl
      exact (apart_c _ (label_mem_labels c)).1 hx
    · rintro rfl
      exact rcs hx
  · refine View.standAll_congr _ rest (fun x hx => still x ?_ ?_) h.others.2
    · rintro rfl
      exact (apart_c _ (label_mem_labels c)).2 hx
    · rintro rfl
      exact rrest hx

/-- Giving up a tree that stands beside. -/
theorem release_beside {t : NodeTree NodeId} (h : Worn d w D C (t :: rest)) :
    ∃ d', release t.label d = .ok () d' ∧ Worn d' w D C rest := by
  have run : release t.label d = .ok () (d.vacateAll [t.label]) := by
    unfold release
    rw [bind_ok (detach_root h.others.1.top rfl)]
    rfl
  have ready := lasting_ready.release t.label d h.ready
  rw [after_ok run] at ready
  refine ⟨_, run, h.drop ready fun x out => ?_⟩
  refine vacateAll_frame (· ∈ t.labels) d [t.label] (by simp [label_mem_labels]) ?_ out
  intro x n mem node c child
  obtain ⟨q, u, within, rfl⟩ := exists_within none t x mem
  have stands := h.others.1.within within
  rw [stands.top] at node
  cases node
  obtain ⟨e, listed, rfl⟩ := List.mem_map.1 child
  cases u with
  | node id data children => exact (within.child listed).label_mem

/-- Moving all children of a tree beside. -/
theorem moveChildren_beside {r : NodeId} {data : NodeData} {cs : List (NodeTree NodeId)}
    (h : Worn d w D C (node r data cs :: rest)) (hollow : Hollow C s)
    (solid : ∀ t ∈ cs, t.data ≠ .fragment) :
    ∃ d', moveChildren r s.label d = .ok () d' ∧
      Worn d' w (D.fill s.label cs) C (node r data [] :: rest) := by
  suffices loop : ∃ d', (do for c in cs.map label do append s.label c : Edit Unit) d = .ok () d' ∧
      Worn d' w (D.fill s.label cs) C (node r data [] :: rest) by
    obtain ⟨d', run, worn⟩ := loop
    refine ⟨d', ?_, worn⟩
    unfold moveChildren
    rw [bind_ok (ask_ok (children_eq_ok h.others.1.1))]
    exact run
  induction cs generalizing d D with
  | nil => exact ⟨d, loop_nil _ d, h.fill_nothing hollow⟩
  | cons c cs ih =>
      obtain ⟨d₁, first, worn⟩ := h.append_child hollow (solid c (by simp))
      obtain ⟨d', others, all⟩ := ih worn fun t listed => solid t (by simp [listed])
      rw [Dress.fill_fill] at all
      exact ⟨d', loop_cons first others, all⟩

/-- A hollow element without content has no children to be given up. -/
theorem discardChildren_hollow (h : Worn d w D C rest) (hollow : Hollow C s)
    (empty : D.content s.label = none) : discardChildren s.label d = .ok () d := by
  obtain ⟨q, inside⟩ := hollow.inside
  have none_there : D.children s.label (s.children.map label) = [] := by
    rw [Dress.children, empty, hollow.empty]
    rfl
  unfold discardChildren
  rw [bind_ok (ask_ok (children_eq_ok (h.record inside)))]
  dsimp only
  rw [none_there]
  exact loop_nil _ d

end Worn

end Stencil
