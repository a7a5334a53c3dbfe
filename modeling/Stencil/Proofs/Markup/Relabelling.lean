import Mathlib.Data.List.Nodup
import Stencil.Proofs.Document.Standing

/-! # Relabelling and revising trees

Trees of one shape are relabellings of each other. A tree is revised at a label by a change of
the subtree that has it, and a relabelling that keeps the label apart from the others carries the
revision over.
-/

namespace Stencil.Markup.NodeTree

variable {ι κ μ : Type}

/-! ## Relabelling -/

@[simp] theorem label_map (f : ι → κ) (t : NodeTree ι) : (t.map f).label = f t.label := by
  cases t
  rfl

@[simp] theorem data_map (f : ι → κ) (t : NodeTree ι) : (t.map f).data = t.data := by
  cases t
  rfl

@[simp] theorem children_map (f : ι → κ) (t : NodeTree ι) :
    (t.map f).children = t.children.map (map f) := by
  cases t
  exact mapAll_eq_map f _

theorem map_node (f : ι → κ) (label : ι) (data : NodeData) (children : List (NodeTree ι)) :
    (node label data children).map f = node (f label) data (children.map (map f)) :=
  congrArg (node (f label) data) (mapAll_eq_map f children)

mutual

theorem map_map (f : ι → κ) (g : κ → μ) : (t : NodeTree ι) → (t.map f).map g = t.map (g ∘ f)
  | node label data children => congrArg (node (g (f label)) data) (mapAll_mapAll f g children)

theorem mapAll_mapAll (f : ι → κ) (g : κ → μ) : (ts : List (NodeTree ι)) →
    mapAll g (mapAll f ts) = mapAll (g ∘ f) ts
  | [] => rfl
  | t :: ts => by rw [mapAll, mapAll, mapAll, map_map f g t, mapAll_mapAll f g ts]

end

@[simp] theorem shape_map (f : ι → κ) (t : NodeTree ι) : (t.map f).shape = t.shape :=
  map_map f _ t

mutual

theorem labels_map (f : ι → κ) : (t : NodeTree ι) → (t.map f).labels = t.labels.map f
  | node label _ children => congrArg (f label :: ·) (labelsAll_mapAll f children)

theorem labelsAll_mapAll (f : ι → κ) : (ts : List (NodeTree ι)) →
    labelsAll (mapAll f ts) = (labelsAll ts).map f
  | [] => rfl
  | t :: ts => by
      rw [mapAll, labelsAll, labelsAll, List.map_append, labels_map f t, labelsAll_mapAll f ts]

end

mutual

/-- A relabelling depends on the labels that occur only. -/
theorem map_congr {f g : ι → κ} : (t : NodeTree ι) → (∀ x ∈ t.labels, f x = g x) →
    t.map f = t.map g
  | node label data children, same => by
      rw [map, map, same label (List.mem_cons_self ..),
        mapAll_congr children fun x mem => same x (List.mem_cons_of_mem _ mem)]

theorem mapAll_congr {f g : ι → κ} : (ts : List (NodeTree ι)) → (∀ x ∈ labelsAll ts, f x = g x) →
    mapAll f ts = mapAll g ts
  | [], _ => rfl
  | t :: ts, same => by
      rw [mapAll, mapAll, map_congr t fun x mem => same x (List.mem_append_left _ mem),
        mapAll_congr ts fun x mem => same x (List.mem_append_right _ mem)]

end

theorem length_labels_shape (t : NodeTree ι) : t.shape.labels.length = t.labels.length := by
  rw [shape, labels_map, List.length_map]

theorem length_labels_of_shape (t : NodeTree ι) (s : NodeTree κ) (same : s.shape = t.shape) :
    s.labels.length = t.labels.length := by
  rw [← length_labels_shape, same, length_labels_shape]

mutual

/-- Of two trees of one shape the second is the first with its labels. -/
theorem map_eq_of_labels {f : ι → κ} : (t : NodeTree ι) → (s : NodeTree κ) → t.shape = s.shape →
    t.labels.map f = s.labels → t.map f = s
  | node label data children, node label' data' children', same, labels => by
      rw [shape_node, shape_node] at same
      obtain ⟨-, rfl, kids⟩ := NodeTree.node.inj same
      obtain ⟨rfl, others⟩ := List.cons.inj labels
      rw [map, mapAll_eq_of_labels children children' kids others]

theorem mapAll_eq_of_labels {f : ι → κ} : (ts : List (NodeTree ι)) → (ss : List (NodeTree κ)) →
    ts.map shape = ss.map shape → (labelsAll ts).map f = labelsAll ss → mapAll f ts = ss
  | [], [], _, _ => rfl
  | t :: ts, s :: ss, same, labels => by
      obtain ⟨first, others⟩ := List.cons.inj same
      have length : (t.labels.map f).length = s.labels.length := by
        rw [List.length_map, length_labels_of_shape s t first]
      rw [labelsAll_cons, labelsAll_cons, List.map_append] at labels
      obtain ⟨own, rest⟩ := List.append_inj labels length
      rw [mapAll, map_eq_of_labels t s first own, mapAll_eq_of_labels ts ss others rest]

end

/-- A tree whose labels are distinct can be relabelled to any tree of its shape. -/
theorem exists_map [DecidableEq ι] [Inhabited κ] {t : NodeTree ι} {s : NodeTree κ}
    (same : t.shape = s.shape) (nodup : t.labels.Nodup) : ∃ f, t.map f = s := by
  have length : t.labels.length = s.labels.length := length_labels_of_shape s t same
  refine ⟨fun x => (s.labels[t.labels.idxOf x]?).getD default, map_eq_of_labels t s same ?_⟩
  refine List.ext_getElem (by simpa using length) fun n inside inside' => ?_
  have own : n < t.labels.length := by simpa using inside
  rw [List.getElem_map, nodup.idxOf_getElem n own, List.getElem?_eq_getElem inside',
    Option.getD_some]

mutual

/-- Labels are not printed. -/
theorem print_map (f : ι → κ) (raw : Bool) : (t : NodeTree ι) → (t.map f).print raw = t.print raw
  | node _ data children => by
      cases data <;> simp only [map, print, printAll_map f _ children]

theorem printAll_map (f : ι → κ) (raw : Bool) : (ts : List (NodeTree ι)) →
    printAll raw (mapAll f ts) = printAll raw ts
  | [] => rfl
  | t :: ts => by rw [mapAll, printAll, printAll, print_map f raw t, printAll_map f raw ts]

end

/-- Trees of one shape have the same markup. -/
theorem print_eq_of_shape {t : NodeTree ι} {s : NodeTree κ} (same : t.shape = s.shape)
    (raw : Bool) : t.print raw = s.print raw := by
  rw [← print_map (fun _ => ()) raw t, ← print_map (fun _ => ()) raw s]
  exact congrArg (print raw) same

theorem printAll_eq_of_shape {ts : List (NodeTree ι)} {us : List (NodeTree κ)}
    (same : ts.map shape = us.map shape) (raw : Bool) : printAll raw ts = printAll raw us := by
  rw [← printAll_map (fun _ => ()) raw ts, ← printAll_map (fun _ => ()) raw us, mapAll_eq_map,
    mapAll_eq_map]
  exact congrArg (printAll raw) same

/-! ## Numbering -/

mutual

/-- The tree with its nodes numbered in document order. -/
def number (n : Nat) : NodeTree ι → NodeTree NodeId
  | node _ data children => node ⟨n⟩ data (numberAll (n + 1) children)

def numberAll (n : Nat) : List (NodeTree ι) → List (NodeTree NodeId)
  | [] => []
  | t :: ts => number n t :: numberAll (n + t.labels.length) ts

end

mutual

theorem labels_number : (n : Nat) → (t : NodeTree ι) →
    (t.number n).labels = (List.range' n t.labels.length).map NodeId.mk
  | n, node label data children => by
      rw [number, labels_node, labels_node, List.length_cons, List.range'_succ, List.map_cons,
        labelsAll_numberAll (n + 1) children]

theorem labelsAll_numberAll : (n : Nat) → (ts : List (NodeTree ι)) →
    labelsAll (numberAll n ts) = (List.range' n (labelsAll ts).length).map NodeId.mk
  | _, [] => rfl
  | n, t :: ts => by
      rw [numberAll, labelsAll_cons, labelsAll_cons, labels_number n t,
        labelsAll_numberAll (n + t.labels.length) ts, ← List.map_append, List.length_append,
        ← List.range'_append_1]

end

theorem nodup_labels_number (n : Nat) (t : NodeTree ι) : (t.number n).labels.Nodup := by
  rw [labels_number]
  exact List.Nodup.map (fun _ _ same => NodeId.mk.inj same) List.nodup_range'

mutual

theorem shape_number : (n : Nat) → (t : NodeTree ι) → (t.number n).shape = t.shape
  | n, node label data children => by
      rw [number, shape_node, shape_node, map_shape_numberAll (n + 1) children]

theorem map_shape_numberAll : (n : Nat) → (ts : List (NodeTree ι)) →
    (numberAll n ts).map shape = ts.map shape
  | _, [] => rfl
  | n, t :: ts => by
      rw [numberAll, List.map_cons, List.map_cons, shape_number n t,
        map_shape_numberAll (n + t.labels.length) ts]

end

mutual

/-- Numbers depend on the shape only. -/
theorem number_shape : (n : Nat) → (t : NodeTree ι) → t.shape.number n = t.number n
  | n, node label data children => by
      rw [shape_node, number, number, numberAll_map_shape (n + 1) children]

theorem numberAll_map_shape : (n : Nat) → (ts : List (NodeTree ι)) →
    numberAll n (ts.map shape) = numberAll n ts
  | _, [] => rfl
  | n, t :: ts => by
      rw [List.map_cons, numberAll, numberAll, number_shape n t, length_labels_shape,
        numberAll_map_shape (n + t.labels.length) ts]

end

theorem number_eq_of_shape {t : NodeTree ι} {s : NodeTree κ} (same : t.shape = s.shape) (n : Nat) :
    t.number n = s.number n := by
  rw [← number_shape n t, same, number_shape]

/-! ## Revising -/

section

variable [DecidableEq ι] [DecidableEq κ]

mutual

/-- The tree with another one in the place of the subtree that has a label. -/
def revise (x : ι) (f : NodeTree ι → NodeTree ι) : NodeTree ι → NodeTree ι
  | node label data children =>
      if label = x then f (node label data children) else node label data (reviseAll x f children)

def reviseAll (x : ι) (f : NodeTree ι → NodeTree ι) : List (NodeTree ι) → List (NodeTree ι)
  | [] => []
  | t :: ts => revise x f t :: reviseAll x f ts

end

@[simp] theorem reviseAll_eq_map (x : ι) (f : NodeTree ι → NodeTree ι) (ts : List (NodeTree ι)) :
    reviseAll x f ts = ts.map (revise x f) := by
  induction ts with
  | nil => rfl
  | cons t ts ih => rw [reviseAll, ih, List.map_cons]

theorem revise_node_of_ne {x label : ι} (f : NodeTree ι → NodeTree ι) (data : NodeData)
    (children : List (NodeTree ι)) (other : label ≠ x) :
    (node label data children).revise x f = node label data (children.map (revise x f)) := by
  rw [revise, if_neg other, reviseAll_eq_map]

mutual

theorem revise_of_not_mem {x : ι} (f : NodeTree ι → NodeTree ι) : (t : NodeTree ι) →
    x ∉ t.labels → t.revise x f = t
  | node label data children, out => by
      rw [labels_node, List.mem_cons, not_or] at out
      rw [revise, if_neg (Ne.symm out.1), reviseAll_of_not_mem f children out.2]

theorem reviseAll_of_not_mem {x : ι} (f : NodeTree ι → NodeTree ι) : (ts : List (NodeTree ι)) →
    x ∉ labelsAll ts → reviseAll x f ts = ts
  | [], _ => rfl
  | t :: ts, out => by
      rw [labelsAll_cons, List.mem_append, not_or] at out
      rw [reviseAll, revise_of_not_mem f t out.1, reviseAll_of_not_mem f ts out.2]

end

theorem label_revise {x : ι} {f : NodeTree ι → NodeTree ι}
    (keeps : ∀ s, s.label = x → (f s).label = x) (t : NodeTree ι) :
    (t.revise x f).label = t.label := by
  obtain ⟨label, data, children⟩ := t
  by_cases top : label = x
  · rw [revise, if_pos top, keeps (.node label data children) top]
    exact top.symm
  · rw [revise_node_of_ne f data children top]
    rfl

mutual

/-- A relabelling that keeps a label apart from the others carries a revision at it over. -/
theorem map_revise {x : ι} {f : NodeTree ι → NodeTree ι} {g : ι → κ}
    {h : NodeTree κ → NodeTree κ} (p : Option ι) : (t : NodeTree ι) →
    (∀ y ∈ t.labels, g y = g x → y = x) →
    (∀ q s, Within p t q s → s.label = x → (f s).map g = h (s.map g)) →
    (t.revise x f).map g = (t.map g).revise (g x) h
  | node label data children, apart, same => by
      by_cases top : label = x
      · subst top
        rw [revise, if_pos rfl, map, revise, if_pos rfl]
        exact same p _ .self rfl
      · have other : g label ≠ g x := mt (apart label (List.mem_cons_self ..)) top
        rw [revise, if_neg top, map, map, revise, if_neg other,
          map_reviseAll (some label) children (fun y mem => apart y (List.mem_cons_of_mem _ mem))
            fun c mem q s inside => same q s ((Within.self.child mem).trans inside)]

theorem map_reviseAll {x : ι} {f : NodeTree ι → NodeTree ι} {g : ι → κ}
    {h : NodeTree κ → NodeTree κ} (p : Option ι) : (ts : List (NodeTree ι)) →
    (∀ y ∈ labelsAll ts, g y = g x → y = x) →
    (∀ c ∈ ts, ∀ q s, Within p c q s → s.label = x → (f s).map g = h (s.map g)) →
    mapAll g (reviseAll x f ts) = reviseAll (g x) h (mapAll g ts)
  | [], _, _ => rfl
  | t :: ts, apart, same => by
      rw [reviseAll, mapAll, mapAll, reviseAll,
        map_revise p t (fun y mem => apart y (List.mem_append_left _ mem)) (same t (by simp)),
        map_reviseAll p ts (fun y mem => apart y (List.mem_append_right _ mem)) fun c mem =>
          same c (by simp [mem])]

end

/-! ## Changing data -/

/-- The tree with other data at its top. -/
def redata (g : NodeData → NodeData) : NodeTree ι → NodeTree ι
  | node label data children => node label (g data) children

omit [DecidableEq ι] [DecidableEq κ] in
theorem map_redata (f : ι → κ) (g : NodeData → NodeData) (t : NodeTree ι) :
    (t.redata g).map f = (t.map f).redata g := by
  cases t
  rfl

mutual

theorem labels_revise_redata (x : ι) (g : NodeData → NodeData) : (t : NodeTree ι) →
    (t.revise x (redata g)).labels = t.labels
  | node label data children => by
      rw [revise]
      split
      · rfl
      · rw [labels_node, labels_node, labelsAll_reviseAll_redata x g children]

theorem labelsAll_reviseAll_redata (x : ι) (g : NodeData → NodeData) : (ts : List (NodeTree ι)) →
    labelsAll (reviseAll x (redata g) ts) = labelsAll ts
  | [] => rfl
  | t :: ts => by
      rw [reviseAll, labelsAll_cons, labelsAll_cons, labels_revise_redata x g t,
        labelsAll_reviseAll_redata x g ts]

end

/-- Changing data is carried over by relabellings that keep the label apart. -/
theorem map_revise_redata {x : ι} (f : ι → κ) (g : NodeData → NodeData) (t : NodeTree ι)
    (apart : ∀ y ∈ t.labels, f y = f x → y = x) :
    (t.revise x (redata g)).map f = (t.map f).revise (f x) (redata g) :=
  map_revise none t apart fun _ s _ _ => map_redata f g s

end

/-! ## Subtrees -/

namespace Within

variable {p q : Option ι} {t s : NodeTree ι}

/-- The subtrees of a relabelled tree are relabelled. -/
theorem of_map {f : ι → κ} {p q : Option κ} {t : NodeTree ι} {s : NodeTree κ}
    (h : Within p (t.map f) q s) (r : Option ι) : ∃ q' s', Within r t q' s' ∧ s'.map f = s := by
  induction h with
  | self => exact ⟨r, t, .self, rfl⟩
  | child _ mem ih =>
      obtain ⟨q', ⟨label, data, children⟩, inside, same⟩ := ih
      rw [map_node] at same
      obtain ⟨-, -, rfl⟩ := NodeTree.node.inj same
      obtain ⟨c, listed, rfl⟩ := List.mem_map.1 mem
      exact ⟨some label, c, inside.child listed, rfl⟩

/-- The subtrees of a tree in which data has changed are those of the tree, with the same change
or without. -/
theorem of_revise_redata [DecidableEq ι] {x : ι} {g : NodeData → NodeData}
    (h : Within p (t.revise x (redata g)) q s) :
    ∃ s', Within p t q s' ∧ (s = s' ∨ s = s'.revise x (redata g)) := by
  induction h with
  | self => exact ⟨t, .self, .inr rfl⟩
  | child _ mem ih =>
      obtain ⟨⟨label, data, children⟩, inside, same⟩ := ih
      rcases same with same | same
      · cases same
        exact ⟨_, inside.child mem, .inl rfl⟩
      · rw [revise] at same
        split at same
        · cases same
          exact ⟨_, inside.child mem, .inl rfl⟩
        · rw [reviseAll_eq_map] at same
          cases same
          obtain ⟨c, listed, rfl⟩ := List.mem_map.1 mem
          exact ⟨c, inside.child listed, .inr rfl⟩

end Within

end Stencil.Markup.NodeTree
