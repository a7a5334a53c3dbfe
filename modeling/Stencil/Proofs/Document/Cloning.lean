import Stencil.Proofs.Document.Moving
import Stencil.Proofs.Document.Planting

/-! # Copying

A node is copied before the nodes below it, and the copy of each child is made as a whole before
it gets its place. Where slots are accounted for that comes to planting a tree: a link that is
set at the end is the link that is set at once. A tree that stands is copied exactly.
-/

namespace Stencil

open Markup NodeTree

namespace Document

open Edit

variable {d d' : Document} {a b x : NodeId} {n : Node}

/-! ## Changes of different slots -/

theorem index_ne (h : a ≠ b) : a.index ≠ b.index := fun same => h (by
  cases a
  cases b
  simpa using same)

theorem modify_comm (d : Document) (h : a ≠ b) (f g : Node → Node) :
    (d.modify a f).modify b g = (d.modify b g).modify a f := by
  unfold modify
  congr 1
  refine Array.ext_getElem? fun i => ?_
  have other := index_ne h
  simp only [Array.getElem?_modify]
  by_cases ia : a.index = i <;> by_cases ib : b.index = i <;> simp_all

theorem modify_modify (d : Document) (a : NodeId) (f g : Node → Node) :
    (d.modify a f).modify a g = d.modify a (g ∘ f) := by
  unfold modify
  congr 1
  refine Array.ext_getElem? fun i => ?_
  simp only [Array.getElem?_modify]
  split <;> simp [Function.comp_def]

theorem modify_congr {f g : Node → Node} (node : d.view a = some n) (same : f n = g n) :
    d.modify a f = d.modify a g := by
  obtain ⟨bound, slot⟩ := node?_eq_some node
  unfold modify
  congr 1
  refine Array.ext_getElem? fun i => ?_
  simp only [Array.getElem?_modify]
  split
  · subst i
    simp [bound, slot, same]
  · rfl

theorem modify_eq_self {f : Node → Node} (node : d.view a = some n) (same : f n = n) :
    d.modify a f = d := by
  rw [modify_congr (g := id) node same]
  unfold modify
  rw [Option.map_id_fun, show d.slots.modify a.index id = d.slots from Array.ext_getElem? fun i => by
    simp [Array.getElem?_modify]]

/-- A node that is changed at once has come changed. -/
theorem allocate_modify (d : Document) (n : Node) (f : Node → Node) :
    d.allocate (f n) = ((d.allocate n).1, (d.allocate n).2.modify (d.allocate n).1 f) := by
  obtain ⟨slots, free, name, strict⟩ := d
  cases free with
  | nil =>
      simp only [allocate, modify, Prod.mk.injEq, true_and, Document.mk.injEq, and_true]
      refine Array.ext_getElem? fun i => ?_
      simp only [Array.getElem?_modify, Array.getElem?_push]
      grind
  | cons slot rest =>
      simp only [allocate, modify, Prod.mk.injEq, true_and, Document.mk.injEq, and_true]
      refine Array.ext_getElem? fun i => ?_
      simp only [Array.getElem?_modify, Array.getElem?_setIfInBounds]
      grind

/-- A change of a node and the coming of another one can be exchanged. -/
theorem modify_allocate (h : d.Accounted) (node : d.view x = some n) (f : Node → Node) (m : Node) :
    (d.modify x f).allocate m = ((d.allocate m).1, (d.allocate m).2.modify x f) := by
  obtain ⟨bound, there⟩ := node?_eq_some node
  obtain ⟨slots, free, name, strict⟩ := d
  cases free with
  | nil =>
      simp only [allocate, modify, Array.size_modify, Prod.mk.injEq, true_and, Document.mk.injEq,
        and_true]
      refine Array.ext_getElem? fun i => ?_
      simp only [Array.getElem?_modify, Array.getElem?_push]
      grind
  | cons slot rest =>
      have empty := (h.mem_free_iff slot).1 (List.mem_cons_self ..)
      have other : x.index ≠ slot := by
        rintro rfl
        simp [bound, there] at empty
      simp only [allocate, modify, Prod.mk.injEq, true_and, Document.mk.injEq, and_true]
      refine Array.ext_getElem? fun i => ?_
      simp only [Array.getElem?_modify, Array.getElem?_setIfInBounds]
      grind

/-! ## Planting -/

mutual

/-- A change of a node and the planting of a tree can be exchanged. -/
theorem modify_plant {ι : Type} : (t : NodeTree ι) → (p : Option NodeId) → (d : Document) →
    d.Accounted → {x : NodeId} → {n : Node} → d.view x = some n → (f : Node → Node) →
    (d.modify x f).plant p t = ((d.plant p t).1, (d.plant p t).2.modify x f)
  | .node label data children, p, d, h, x, n, node, f => by
      obtain ⟨fresh, view, accounted⟩ := h.allocate { data, parent := p, children := [] }
      have first := modify_allocate h node f { data, parent := p, children := [] }
      rcases made : d.allocate { data, parent := p, children := [] } with ⟨id, d₁⟩
      rw [made] at fresh view accounted first
      have other : x ≠ id := by
        rintro rfl
        rw [node] at fresh
        cases fresh
      have still : d₁.view x = some n := by
        rw [show d₁.view = _ from view, View.put_of_ne _ _ other, node]
      have others := modify_plantAll children id d₁ accounted still f
      simp only [plant, first, made, others, modify_comm _ other]

theorem modify_plantAll {ι : Type} : (ts : List (NodeTree ι)) → (p : NodeId) → (d : Document) →
    d.Accounted → {x : NodeId} → {n : Node} → d.view x = some n → (f : Node → Node) →
    plantAll p (d.modify x f) ts = ((plantAll p d ts).1, (plantAll p d ts).2.modify x f)
  | [], _, _, _, _, _, _, _ => rfl
  | t :: ts, p, d, h, x, n, node, f => by
      have first := modify_plant t (some p) d h node f
      obtain ⟨s, -, planted⟩ := planted_plant t (some p) d h
      have others := modify_plantAll ts p (d.plant (some p) t).2 planted.trades.accounted
        (planted.trades.kept node (by simp)) f
      simp only [plantAll, first, others]

end

/-- A tree that is given its parent at the end is planted below the parent. -/
theorem plant_some {ι : Type} (h : d.Accounted) (p : NodeId) (t : NodeTree ι) :
    d.plant (some p) t = ((d.plant none t).1,
      (d.plant none t).2.modify (d.plant none t).1 fun n => { n with parent := some p }) := by
  obtain ⟨label, data, children⟩ := t
  have first := allocate_modify d { data, parent := none, children := [] }
    fun n => { n with parent := some p }
  obtain ⟨-, view, accounted⟩ := h.allocate { data, parent := none, children := [] }
  rcases made : d.allocate { data, parent := none, children := [] } with ⟨id, d₁⟩
  rw [made] at first view accounted
  dsimp only at first view accounted
  have here : d₁.view id = some { data, parent := none, children := [] } := by
    rw [view, View.put_self]
  have below := modify_plantAll children id d₁ accounted here fun n => { n with parent := some p }
  simp only [plant, first, made, below, modify_modify]
  rfl

/-! ## Hanging up -/

/-- Trees are planted below a node, which gets them behind its children. -/
def hung {ι : Type} (root : NodeId) (d : Document) (ts : List (NodeTree ι)) : Document :=
  (plantAll root d ts).2.modify root fun n => { n with children := n.children ++ (plantAll root d ts).1 }

section Hung

variable {ι : Type} {root : NodeId} {t : NodeTree ι} {ts : List (NodeTree ι)}

theorem hung_nil (host : d.view root = some n) : d.hung root ([] : List (NodeTree ι)) = d :=
  modify_eq_self host (by rw [plantAll, List.append_nil])

theorem Accounted.hung (h : d.Accounted) (root : NodeId) (ts : List (NodeTree ι)) :
    (d.hung root ts).Accounted := by
  obtain ⟨ss, -, planted⟩ := planted_plantAll ts root d h
  exact planted.trades.accounted.modify root _

theorem view_hung (h : d.Accounted) (host : d.view root = some n) :
    (d.hung root ts).view root =
      some { n with children := n.children ++ (plantAll root d ts).1 } := by
  obtain ⟨ss, -, planted⟩ := planted_plantAll ts root d h
  rw [Document.hung, view_modify, View.alter_self _ (planted.trades.kept host (by simp))]

theorem hung_kept (h : d.Accounted) (node : d.view x = some n) (other : x ≠ root) :
    (d.hung root ts).view x = some n := by
  obtain ⟨ss, -, planted⟩ := planted_plantAll ts root d h
  rw [Document.hung, view_modify, View.alter_of_ne _ _ other, planted.trades.kept node (by simp)]

/-- Trees can be hung up one after the other. -/
theorem hung_cons (h : d.Accounted) (host : d.view root = some n) (t : NodeTree ι)
    (ts : List (NodeTree ι)) : d.hung root (t :: ts) = (d.hung root [t]).hung root ts := by
  obtain ⟨s, -, planted⟩ := planted_plant t (some root) d h
  have exchanged := modify_plantAll ts root _ planted.trades.accounted
    (planted.trades.kept host (by simp)) fun n =>
      { n with children := n.children ++ [(d.plant (some root) t).1] }
  have one : d.hung root [t] = (d.plant (some root) t).2.modify root fun n =>
      { n with children := n.children ++ [(d.plant (some root) t).1] } := rfl
  rw [one, Document.hung, Document.hung, exchanged, modify_modify]
  simp only [plantAll, Function.comp_def, List.append_assoc, List.singleton_append]

/-- Trees can be hung up in two goes. -/
theorem hung_append (h : d.Accounted) (host : d.view root = some n) (ts us : List (NodeTree ι)) :
    d.hung root (ts ++ us) = (d.hung root ts).hung root us := by
  induction ts generalizing d n with
  | nil => rw [List.nil_append, hung_nil host]
  | cons t ts ih =>
      rw [List.cons_append, hung_cons h host, ih (h.hung root [t]) (view_hung h host),
        ← hung_cons h host]

/-- A new parent of a node and the hanging up of trees can be exchanged. -/
theorem reparent_hung (h : d.Accounted) (node : d.view x = some n) (p : Option NodeId)
    (ts : List (NodeTree ι)) :
    (d.modify x fun n => { n with parent := p }).hung root ts =
      (d.hung root ts).modify x fun n => { n with parent := p } := by
  rw [Document.hung, Document.hung, modify_plantAll ts root d h node]
  by_cases same : x = root
  · subst same
    rw [modify_modify, modify_modify]
    rfl
  · exact modify_comm _ same _ _

/-- A change of a node and the hanging up of trees elsewhere can be exchanged. -/
theorem modify_hung (h : d.Accounted) (node : d.view x = some n) (other : x ≠ root)
    (f : Node → Node) (ts : List (NodeTree ι)) :
    (d.modify x f).hung root ts = (d.hung root ts).modify x f := by
  rw [Document.hung, Document.hung, modify_plantAll ts root d h node, modify_comm _ other]

/-- A tree that is hung up has been planted alone and linked with its host. -/
theorem hung_singleton (h : d.Accounted) (root : NodeId) (t : NodeTree ι) :
    d.hung root [t] =
      ((d.plant none t).2.modify (d.plant none t).1 fun n => { n with parent := some root }).modify
        root fun n => { n with children := n.children ++ [(d.plant none t).1] } := by
  simp only [Document.hung, plantAll, plant_some h root t]

/-- A tree that is given its parent at the end is hung up. -/
theorem hang_plant (h : d.Accounted) (host : d.view root = some n) (t : NodeTree ι) :
    hang root (d.plant none t).1 (d.plant none t).2 = .ok () (d.hung root [t]) := by
  obtain ⟨s, top, planted⟩ := planted_plant t none d h
  obtain ⟨s', -, planted'⟩ := planted_plant t (some root) d h
  have node := planted.stands.top
  rw [top] at node
  have still := planted'.trades.kept host (by simp)
  rw [plant_some h root t] at still
  have linked : setParent (some root) (d.plant none t).1 (d.plant none t).2 = .ok () _ :=
    modifyNode_ok _ node
  rw [hang, bind_ok linked, hung_singleton h root t]
  exact modifyNode_ok _ still

/-- A tree is planted by creating its top and hanging up what is below. -/
theorem plant_node (h : d.Accounted) (label : ι) (data : NodeData) (ts : List (NodeTree ι)) :
    d.plant none (.node label data ts) =
      ((d.create data).1, (d.create data).2.hung (d.create data).1 ts) := by
  have created := planted_create h data
  obtain ⟨ss, -, planted⟩ := planted_plantAll ts (d.create data).1 _ created.trades.accounted
  have host := planted.trades.kept created.stands.1 (by simp)
  rw [Document.hung, modify_congr (g := fun n => { n with
    children := (plantAll (d.create data).1 (d.create data).2 ts).1 }) host rfl]
  rfl

end Hung

/-- A new tree is put behind the children of a node. -/
theorem append_new {p c : NodeId} {m n : Node} (host : d.view p = some m)
    (container : m.data.isContainer = true) (node : d.view c = some n)
    (solid : n.data ≠ .fragment) (root : n.parent = none) (rooted : d.view.Rooted p)
    (apart : ¬d.view.Above c p) : append p c d = hang p c d := by
  obtain ⟨b, asked, above⟩ := isAbove_eq rooted c
  have no : b = false := by simpa [← above] using apart
  subst no
  have linked : setParent (some p) c d = .ok () (d.modify c fun n => { n with parent := some p }) :=
    modifyNode_ok _ node
  have told : (forIn [c] PUnit.unit fun id _ => do
      setParent (some p) id
      pure (ForInStep.yield PUnit.unit) : Edit PUnit) d =
        .ok PUnit.unit (d.modify c fun n => { n with parent := some p }) := by
    rw [List.forIn_cons, bind_assoc, bind_ok linked]
    rfl
  have taken : takeFor p c d = .ok [c] (d.modify c fun n => { n with parent := some p }) := by
    unfold takeFor
    rw [bind_ok (requireContainer_ok host container), bind_ok (ask_ok (node_eq_ok node))]
    obtain ⟨data, parent, children⟩ := n
    cases data with
    | fragment => exact (solid rfl).elim
    | element | text | comment | doctype =>
        dsimp only
        rw [bind_ok (ask_ok asked), if_neg (by simp), bind_ok (detach_root node root),
          bind_ok (pure_run _ _), bind_ok told]
        rfl
  rw [append, bind_ok taken, hang, bind_ok linked]

/-! ## Copies -/

/-- The copy of a node is a new node. -/
theorem copy_ok {id : NodeId} (node : d.view id = some n) :
    copy id d = .ok (d.create n.data).1 (d.create n.data).2 := by
  rw [copy, bind_ok (ask_ok (data_eq_ok node))]
  rfl

theorem copy_refused {id : NodeId} (gone : d.view id = none) :
    copy id d = .error (.unknownNode id) d := bind_error (ask_error (data_eq_error gone))

/-- What copies of children leave that are hung up one after the other. -/
theorem exists_hung_of_copies {fuel : Nat} {root : NodeId}
    (copies : ∀ {d d' : Document} {id c : NodeId}, d.Accounted → copyWithin fuel id d = .ok c d' →
      ∃ t : NodeTree Unit, d.plant none t = (c, d'))
    {children : List NodeId} (h : d.Accounted) (host : d.view root = some n)
    (run : (children.forM fun child => do hang root (← copyWithin fuel child) : Edit PUnit) d =
      .ok () d') :
    ∃ ts : List (NodeTree Unit), d' = d.hung root ts := by
  induction children generalizing d n with
  | nil =>
      cases run
      exact ⟨[], (hung_nil host).symm⟩
  | cons child children ih =>
      obtain ⟨_, d₁, first, others⟩ := of_bind_ok run
      obtain ⟨c, d₂, copied, hangs⟩ := of_bind_ok first
      obtain ⟨t, planted⟩ := copies h copied
      have hung := hang_plant h host t
      rw [planted, hangs] at hung
      cases hung
      obtain ⟨ts, rfl⟩ := ih (h.hung root [t]) (view_hung h host) others
      exact ⟨t :: ts, (hung_cons h host t ts).symm⟩

/-- What a copy leaves is what the planting of some tree leaves, however the nodes are linked. -/
theorem exists_plant_of_copyWithin {fuel : Nat} {id c : NodeId} (h : d.Accounted)
    (run : copyWithin fuel id d = .ok c d') : ∃ t : NodeTree Unit, d.plant none t = (c, d') := by
  induction fuel generalizing d d' id c with
  | zero => cases run
  | succ fuel ih =>
      rw [copyWithin] at run
      obtain ⟨root, d₁, copied, run⟩ := of_bind_ok run
      obtain ⟨data, -, made⟩ := of_ask_bind copied
      cases made
      obtain ⟨children, -, run⟩ := of_ask_bind run
      obtain ⟨_, d₂, copies, done⟩ := of_bind_ok run
      cases done
      have created := planted_create h data
      obtain ⟨ts, rfl⟩ :=
        exists_hung_of_copies ih created.trades.accounted created.stands.1 copies
      exact ⟨.node () data ts, plant_node h () data ts⟩

theorem exists_plant_of_copyTree {id c : NodeId} (h : d.Accounted)
    (run : copyTree id d = .ok c d') : ∃ t : NodeTree Unit, d.plant none t = (c, d') := by
  obtain ⟨levels, -, run⟩ := of_ask_bind run
  exact exists_plant_of_copyWithin h run

mutual

/-- A tree that stands is copied as it is planted. -/
theorem copyWithin_stands : (P : NodeTree NodeId) → {q : Option NodeId} → {d : Document} →
    {fuel : Nat} → d.Accounted → d.view.Stands q P → P.height ≤ fuel →
    copyWithin fuel P.label d = .ok (d.plant none P).1 (d.plant none P).2
  | .node id data children, _, _, 0, _, _, short => by simp [height] at short
  | .node id data children, q, d, fuel + 1, h, stands, short => by
      have created := planted_create h data
      have below : (d.create data).2.view.StandAll (some id) children :=
        View.standAll_iff.2 fun t mem =>
          created.trades.stands (View.standAll_iff.1 stands.2 t mem) (by simp)
      have out : (d.create data).1 ∉ labelsAll children := fun mem => by
        exact stands.live (List.mem_cons_of_mem id mem)
          (created.trades.fresh _ (List.mem_singleton_self _) (by simp))
      have copies := copies_stand children created.trades.accounted created.stands.1 below out
        (by simpa [height] using short)
      rw [copyWithin, NodeTree.label, bind_ok (copy_ok stands.1),
        bind_ok (ask_ok (children_eq_ok (created.trades.kept stands.1 (by simp)))),
        plant_node h id data children]
      exact bind_ok copies

theorem copies_stand : (ts : List (NodeTree NodeId)) → {p : Option NodeId} → {d : Document} →
    {fuel : Nat} → {root : NodeId} → {n : Node} → d.Accounted → d.view root = some n →
    d.view.StandAll p ts → root ∉ labelsAll ts → heightAll ts ≤ fuel →
    ((ts.map label).forM fun child => do hang root (← copyWithin fuel child) : Edit PUnit) d =
      .ok () (d.hung root ts)
  | [], _, _, _, _, _, _, host, _, _, _ => congrArg _ (hung_nil host).symm
  | t :: ts, p, d, fuel, root, n, h, host, stands, out, short => by
      rw [heightAll, Nat.max_le] at short
      rw [labelsAll_cons, List.mem_append, not_or] at out
      have first := copyWithin_stands t h stands.1 short.1
      have step := (bind_ok first).trans (hang_plant h host t)
      have still : (d.hung root [t]).view.StandAll p ts := View.standAll_iff.2 fun u mem => by
        have old := View.standAll_iff.1 stands.2 u mem
        refine old.congr fun x inside => ?_
        obtain ⟨m, node⟩ := Option.ne_none_iff_exists'.1 (old.live inside)
        rw [node, hung_kept h node]
        rintro rfl
        exact out.2 (labels_subset_labelsAll mem _ inside)
      have others := copies_stand ts (h.hung root [t]) (view_hung h host) still out.2 short.2
      rw [List.map_cons, List.forM, bind_ok step, others, ← hung_cons h host]

end

theorem copyTree_eq {q : Option NodeId} {P : NodeTree NodeId} (h : d.Accounted)
    (stands : d.view.Stands q P) (nodup : P.labels.Nodup) :
    copyTree P.label d = .ok (d.plant none P).1 (d.plant none P).2 := by
  have levels : ask (fun d => .ok d.slots.size) d = .ok d.slots.size d := ask_ok rfl
  rw [copyTree, bind_ok levels]
  exact copyWithin_stands P h stands
    (Nat.le_trans (height_le_length_labels P) (length_labels_le stands nodup))

theorem copyTree_refused {id : NodeId} (gone : d.view id = none) :
    copyTree id d = .error (.unknownNode id) d := by
  have levels : ask (fun d => .ok d.slots.size) d = .ok d.slots.size d := ask_ok rfl
  rw [copyTree, bind_ok levels]
  cases d.slots.size with
  | zero => rfl
  | succ fuel =>
      rw [copyWithin]
      exact bind_error (copy_refused gone)

end Document

end Stencil
