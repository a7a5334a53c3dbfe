import Stencil.Proofs.Document.Forest

/-! # Standing trees

A tree of numbers stands in a view when every number has a node with that tree's data,
children and parent. Standing trees are what reading a document gives and what planting a
tree leaves behind.
-/

namespace Stencil

open Markup

namespace Markup.NodeTree

variable {ι κ : Type}

@[simp] theorem labelsAll_nil : labelsAll ([] : List (NodeTree ι)) = [] := rfl

@[simp] theorem labelsAll_cons (t : NodeTree ι) (ts : List (NodeTree ι)) :
    labelsAll (t :: ts) = t.labels ++ labelsAll ts := rfl

@[simp] theorem labelsAll_append (ts us : List (NodeTree ι)) :
    labelsAll (ts ++ us) = labelsAll ts ++ labelsAll us := by
  induction ts with
  | nil => rfl
  | cons t ts ih => simp [ih]

@[simp] theorem labels_node (label : ι) (data : NodeData) (children : List (NodeTree ι)) :
    (node label data children).labels = label :: labelsAll children := rfl

theorem label_mem_labels (t : NodeTree ι) : t.label ∈ t.labels := by
  cases t
  simp [label]

theorem labels_subset_labelsAll {t : NodeTree ι} {ts : List (NodeTree ι)} (h : t ∈ ts) :
    ∀ x ∈ t.labels, x ∈ labelsAll ts := by
  induction ts with
  | nil => cases h
  | cons s ts ih =>
      intro x hx
      rcases List.mem_cons.1 h with rfl | h
      · simp [hx]
      · simp [ih h x hx]

theorem map_label_sublist (ts : List (NodeTree ι)) : (ts.map label).Sublist (labelsAll ts) := by
  induction ts with
  | nil => exact .slnil
  | cons t ts ih =>
      cases t with
      | node id data children =>
          exact List.Sublist.cons_cons id (ih.trans (List.sublist_append_right _ _))

theorem labels_sublist_labelsAll {t : NodeTree ι} {ts : List (NodeTree ι)} (h : t ∈ ts) :
    t.labels.Sublist (labelsAll ts) := by
  induction ts with
  | nil => cases h
  | cons s ts ih =>
      rcases List.mem_cons.1 h with rfl | h
      · exact List.sublist_append_left _ _
      · exact (ih h).trans (List.sublist_append_right _ _)

@[simp] theorem mapAll_eq_map (f : ι → κ) (ts : List (NodeTree ι)) :
    mapAll f ts = ts.map (map f) := by
  induction ts with
  | nil => rfl
  | cons t ts ih => simp [mapAll, ih]

theorem shape_node (label : ι) (data : NodeData) (children : List (NodeTree ι)) :
    (node label data children).shape = node () data (children.map shape) := by
  simp [shape, map]

mutual

/-- The number of levels of a tree. -/
def height : NodeTree ι → Nat
  | node _ _ children => heightAll children + 1

def heightAll : List (NodeTree ι) → Nat
  | [] => 0
  | t :: ts => max (height t) (heightAll ts)

end

theorem height_le_heightAll {t : NodeTree ι} {ts : List (NodeTree ι)} (mem : t ∈ ts) :
    t.height ≤ heightAll ts := by
  induction ts with
  | nil => cases mem
  | cons u ts ih =>
      rw [heightAll]
      rcases List.mem_cons.1 mem with rfl | mem
      · exact Nat.le_max_left ..
      · exact Nat.le_trans (ih mem) (Nat.le_max_right ..)

theorem heightAll_children_le {t : NodeTree ι} {ts : List (NodeTree ι)} (mem : t ∈ ts) :
    heightAll t.children ≤ heightAll ts := by
  cases t
  exact Nat.le_of_succ_le (height_le_heightAll mem)

mutual

theorem height_le_length_labels : (t : NodeTree ι) → t.height ≤ t.labels.length
  | node _ _ children => by
      have := heightAll_le_length_labelsAll children
      simp only [height, labels_node, List.length_cons]
      omega

theorem heightAll_le_length_labelsAll : (ts : List (NodeTree ι)) →
    heightAll ts ≤ (labelsAll ts).length
  | [] => Nat.le_refl 0
  | t :: ts => by
      have first := height_le_length_labels t
      have others := heightAll_le_length_labelsAll ts
      simp only [heightAll, labelsAll_cons, List.length_append]
      omega

end

mutual

/-- What every tree read from a document is: attribute names are distinct, only containers
have children, and fragments occur at the top only. -/
def Fits : NodeTree ι → Prop
  | node _ data children =>
      View.AttributesDistinct data ∧ (children ≠ [] → data.isContainer = true) ∧ FitAll children

def FitAll : List (NodeTree ι) → Prop
  | [] => True
  | t :: ts => (t.data ≠ .fragment ∧ Fits t) ∧ FitAll ts

end

theorem fitAll_iff {ts : List (NodeTree ι)} :
    FitAll ts ↔ ∀ t ∈ ts, t.data ≠ .fragment ∧ t.Fits := by
  induction ts with
  | nil => simp [FitAll]
  | cons t ts ih => simp [FitAll, ih]

mutual

theorem shape_eq_self : (t : NodeTree Unit) → t.shape = t
  | node () data children => by rw [shape_node, map_shape_eq_self children]

theorem map_shape_eq_self : (ts : List (NodeTree Unit)) → ts.map shape = ts
  | [] => rfl
  | t :: ts => by rw [List.map_cons, shape_eq_self t, map_shape_eq_self ts]

end

@[simp] theorem data_shape (t : NodeTree ι) : t.shape.data = t.data := by
  cases t
  rfl

mutual

theorem fits_shape : (t : NodeTree ι) → (t.shape.Fits ↔ t.Fits)
  | node label data children => by
      have below := fitAll_map_shape children
      rw [shape_node]
      simp [Fits, below]

theorem fitAll_map_shape : (ts : List (NodeTree ι)) → (FitAll (ts.map shape) ↔ FitAll ts)
  | [] => Iff.rfl
  | t :: ts => by
      have first := fits_shape t
      have others := fitAll_map_shape ts
      simp [FitAll, first, others]

end

/-- A subtree with the parent of its top. -/
inductive Within (p : Option ι) (t : NodeTree ι) : Option ι → NodeTree ι → Prop where
  | self : Within p t p t
  | child {q : Option ι} {id : ι} {data : NodeData} {children : List (NodeTree ι)}
      {c : NodeTree ι} (inside : Within p t q (node id data children)) (mem : c ∈ children) :
      Within p t (some id) c

namespace Within

variable {p q : Option ι} {t s : NodeTree ι}

theorem trans {r : Option ι} {u : NodeTree ι} (h : Within p t q s) (hu : Within q s r u) :
    Within p t r u := by
  induction hu with
  | self => exact h
  | child _ mem ih => exact ih.child mem

/-- What is inside a tree does not depend on the parent of its top. -/
theorem reparent (h : Within p t q s) (r : Option ι) : ∃ q', Within r t q' s := by
  induction h with
  | self => exact ⟨r, .self⟩
  | child _ mem ih =>
      obtain ⟨_, inside⟩ := ih
      exact ⟨_, inside.child mem⟩

theorem sublist (h : Within p t q s) : s.labels.Sublist t.labels := by
  induction h with
  | self => exact List.Sublist.refl _
  | child _ mem ih =>
      exact ((labels_sublist_labelsAll mem).trans (List.sublist_cons_self _ _)).trans ih

theorem fits (h : Within p t q s) (ht : t.Fits) : s.Fits := by
  induction h with
  | self => exact ht
  | child _ mem ih => exact (fitAll_iff.1 ih.2.2 _ mem).2

/-- A fragment is found at the top only. -/
theorem eq_of_fragment (h : Within p t q s) (ht : t.Fits) (hs : s.data = .fragment) :
    q = p ∧ s = t := by
  cases h with
  | self => exact ⟨rfl, rfl⟩
  | child inside mem => exact ((fitAll_iff.1 (inside.fits ht).2.2 _ mem).1 hs).elim

theorem label_mem (h : Within p t q s) : s.label ∈ t.labels :=
  h.sublist.subset (label_mem_labels s)

/-- A subtree is the whole tree or found below one of the children. -/
theorem top_or_below {id : ι} {data : NodeData} {children : List (NodeTree ι)}
    (h : Within p (node id data children) q s) :
    q = p ∧ s = node id data children ∨ ∃ c ∈ children, Within (some id) c q s := by
  generalize top : node id data children = t at h
  induction h with
  | self => exact .inl ⟨rfl, rfl⟩
  | child inside mem ih =>
      right
      rcases ih with ⟨rfl, same⟩ | ⟨c, listed, below⟩
      · rw [← top] at same
        cases same
        exact ⟨_, mem, .self⟩
      · exact ⟨c, listed, below.child mem⟩

end Within

theorem eq_of_mem_labels {ts : List (NodeTree ι)} (nodup : (labelsAll ts).Nodup) {s t : NodeTree ι}
    (hs : s ∈ ts) (ht : t ∈ ts) {x : ι} (xs : x ∈ s.labels) (xt : x ∈ t.labels) : s = t := by
  induction ts with
  | nil => cases hs
  | cons u ts ih =>
      obtain ⟨-, rest, apart⟩ := List.nodup_append.1 nodup
      rcases List.mem_cons.1 hs with first | others
      · subst first
        rcases List.mem_cons.1 ht with second | more
        · exact second.symm
        · exact (apart x xs x (labels_subset_labelsAll more x xt) rfl).elim
      · rcases List.mem_cons.1 ht with second | more
        · subst second
          exact (apart x xt x (labels_subset_labelsAll others x xs) rfl).elim
        · exact ih rest others more

mutual

/-- Where labels are distinct, a label belongs to one subtree only. -/
theorem within_unique : (t : NodeTree ι) → (p : Option ι) → t.labels.Nodup →
    ∀ {q r : Option ι} {s u : NodeTree ι}, Within p t q s → Within p t r u → s.label = u.label →
      q = r ∧ s = u
  | node id data children, p, nodup, q, r, s, u, hs, hu, same => by
      obtain ⟨out, below⟩ := List.nodup_cons.1 nodup
      rcases hs.top_or_below with ⟨rfl, rfl⟩ | ⟨c, hc, sc⟩
      · rcases hu.top_or_below with ⟨rfl, rfl⟩ | ⟨e, he, ue⟩
        · exact ⟨rfl, rfl⟩
        · exact (out (labels_subset_labelsAll he _ (by
            rw [show id = u.label from same]
            exact ue.label_mem))).elim
      · rcases hu.top_or_below with ⟨rfl, rfl⟩ | ⟨e, he, ue⟩
        · exact (out (labels_subset_labelsAll hc _ (by
            rw [show id = s.label from same.symm]
            exact sc.label_mem))).elim
        · have one := eq_of_mem_labels below hc he sc.label_mem (same ▸ ue.label_mem)
          subst one
          exact within_unique_of_mem children id below c hc sc ue same

theorem within_unique_of_mem : (ts : List (NodeTree ι)) → (id : ι) → (labelsAll ts).Nodup →
    ∀ c ∈ ts, ∀ {q r : Option ι} {s u : NodeTree ι}, Within (some id) c q s →
      Within (some id) c r u → s.label = u.label → q = r ∧ s = u
  | [], _, _, _, hc, _, _, _, _, _, _, _ => by cases hc
  | t :: ts, id, nodup, c, hc, q, r, s, u, hs, hu, same => by
      obtain ⟨first, rest, -⟩ := List.nodup_append.1 nodup
      rcases List.mem_cons.1 hc with top | inside
      · rw [top] at hs hu
        exact within_unique t (some id) first hs hu same
      · exact within_unique_of_mem ts id rest c inside hs hu same

end

mutual

/-- Every label is the label of a subtree. -/
theorem exists_within (p : Option ι) :
    (t : NodeTree ι) → ∀ x ∈ t.labels, ∃ q s, Within p t q s ∧ s.label = x
  | node id data children, x, hx => by
      rcases List.mem_cons.1 hx with rfl | hx
      · exact ⟨p, _, .self, rfl⟩
      · obtain ⟨c, mem, q, s, inside, same⟩ := exists_withinAll (some id) children x hx
        exact ⟨q, s, (Within.self.child mem).trans inside, same⟩

theorem exists_withinAll (p : Option ι) :
    (ts : List (NodeTree ι)) → ∀ x ∈ labelsAll ts,
      ∃ t ∈ ts, ∃ q s, Within p t q s ∧ s.label = x
  | [], x, hx => by simp at hx
  | t :: ts, x, hx => by
      rcases List.mem_append.1 hx with hx | hx
      · obtain ⟨q, s, inside, same⟩ := exists_within p t x hx
        exact ⟨t, List.mem_cons_self .., q, s, inside, same⟩
      · obtain ⟨c, mem, rest⟩ := exists_withinAll p ts x hx
        exact ⟨c, List.mem_cons_of_mem _ mem, rest⟩

end

end Markup.NodeTree

open NodeTree

mutual

/-- Every node of the tree is in the view, with its data, its children and its parent. -/
def View.Stands (v : View) (parent : Option NodeId) : NodeTree NodeId → Prop
  | .node id data children =>
      v id = some { data, parent, children := children.map NodeTree.label } ∧
        View.StandAll v (some id) children

def View.StandAll (v : View) (parent : Option NodeId) : List (NodeTree NodeId) → Prop
  | [] => True
  | t :: ts => View.Stands v parent t ∧ View.StandAll v parent ts

end

namespace View

variable {v w : View} {p q : Option NodeId} {t s : NodeTree NodeId}

theorem standAll_iff {ts : List (NodeTree NodeId)} :
    v.StandAll p ts ↔ ∀ t ∈ ts, v.Stands p t := by
  induction ts with
  | nil => simp [StandAll]
  | cons t ts ih => simp [StandAll, ih]

theorem standAll_append {ts us : List (NodeTree NodeId)} :
    v.StandAll p (ts ++ us) ↔ v.StandAll p ts ∧ v.StandAll p us := by
  simp only [standAll_iff, List.mem_append]
  exact ⟨fun h => ⟨fun t m => h t (.inl m), fun t m => h t (.inr m)⟩,
    fun h t m => m.elim (h.1 t) (h.2 t)⟩

namespace Stands

/-- The record of the top of a standing tree. -/
theorem top (h : v.Stands p t) :
    v t.label = some { data := t.data, parent := p, children := t.children.map NodeTree.label } := by
  cases t
  exact h.1

theorem children (h : v.Stands p t) : v.StandAll (some t.label) t.children := by
  cases t
  exact h.2

theorem within (h : v.Stands p t) (inside : Within p t q s) : v.Stands q s := by
  induction inside with
  | self => exact h
  | child _ mem ih => exact standAll_iff.1 ih.2 _ mem

/-- Every label of a standing tree is the number of a node. -/
theorem live (h : v.Stands p t) {x : NodeId} (hx : x ∈ t.labels) : v x ≠ none := by
  obtain ⟨q, s, inside, rfl⟩ := exists_within p t x hx
  rw [(h.within inside).top]
  simp

end Stands

mutual

theorem stands_congr : (p : Option NodeId) → (t : NodeTree NodeId) →
    (∀ x ∈ t.labels, w x = v x) → v.Stands p t → w.Stands p t
  | _, .node id _ children, same, h =>
      ⟨(same id (by simp)).trans h.1,
        standAll_congr (some id) children (fun x hx => same x (by simp [hx])) h.2⟩

theorem standAll_congr : (p : Option NodeId) → (ts : List (NodeTree NodeId)) →
    (∀ x ∈ labelsAll ts, w x = v x) → v.StandAll p ts → w.StandAll p ts
  | _, [], _, _ => trivial
  | p, t :: ts, same, h =>
      ⟨stands_congr p t (fun x hx => same x (by simp [hx])) h.1,
        standAll_congr p ts (fun x hx => same x (by simp [hx])) h.2⟩

end

/-- A standing tree depends on the nodes with its labels only. -/
theorem Stands.congr (h : v.Stands p t) (same : ∀ x ∈ t.labels, w x = v x) : w.Stands p t :=
  stands_congr p t same h

theorem Stands.mono (h : v.Stands p t) (keeps : ∀ x n, v x = some n → w x = some n) :
    w.Stands p t := by
  refine h.congr fun x hx => ?_
  cases hv : v x with
  | none => exact (h.live hx hv).elim
  | some n => exact keeps x n hv

end View

end Stencil
