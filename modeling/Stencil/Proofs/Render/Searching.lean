import Stencil.Proofs.Render.Assembly

/-! # Searching

A template that is built visits the nodes of a copy from a stack, and binds each host before
it goes on. Where a tree stands in a document whose slots are accounted for, that comes to the
same as listing the hosts of the tree first: a host that has been bound has lost its marker,
and nothing has become of the nodes that are still to be visited.
-/

namespace Stencil

open Markup NodeTree Document Edit View

/-! ## What is kept -/

/-- All nodes are as they were, except for some of them. New nodes may have come. -/
structure Document.Preserves (changed : List NodeId) (d d' : Document) : Prop where
  accounted : d'.Accounted
  nodes : ∀ {x n}, x ∉ changed → d.view x = some n → d'.view x = some n

namespace Document.Preserves

variable {d d' d'' : Document} {changed more : List NodeId}

theorem refl (h : d.Accounted) (changed : List NodeId) : Preserves changed d d :=
  ⟨h, fun _ node => node⟩

theorem trans (h : Preserves changed d d') (k : Preserves changed d' d'') : Preserves changed d d'' :=
  ⟨k.accounted, fun out node => k.nodes out (h.nodes out node)⟩

theorem mono (h : Preserves changed d d') (sub : changed ⊆ more) : Preserves more d d' :=
  ⟨h.accounted, fun out node => h.nodes (fun mem => out (sub mem)) node⟩

theorem of_trades {new : List NodeId} (h : Trades d d' [] new) : Preserves [] d d' :=
  ⟨h.accounted, fun out node => h.kept node out⟩

/-- Nodes that were not there do not count. -/
theorem trans_new (h : Preserves [] d d') (k : Preserves changed d' d'')
    (fresh : ∀ x ∈ changed, d.view x = none) : Preserves [] d d'' where
  accounted := k.accounted
  nodes {x n} out node := by
    refine k.nodes (fun mem => ?_) (h.nodes out node)
    rw [fresh x mem] at node
    cases node

theorem stands (h : Preserves changed d d') {p : Option NodeId} {t : NodeTree NodeId}
    (stands : d.view.Stands p t) (apart : ∀ x ∈ t.labels, x ∉ changed) : d'.view.Stands p t := by
  refine stands.congr fun x mem => ?_
  obtain ⟨n, node⟩ := Option.ne_none_iff_exists'.1 (stands.live mem)
  rw [node, h.nodes (apart x mem) node]

end Document.Preserves

/-! ## What has been bound -/

namespace Fittings

/-- Puts what has been wired behind what there is. -/
def add (f : Fittings) (w : Wiring) : Fittings where
  bindings := w.bindings.foldl BindingTable.push f.bindings
  regions := f.regions ++ w.regions
  parts := f.parts ++ w.parts

@[simp] theorem add_nothing (f : Fittings) : f.add {} = f := by
  simp [add]

theorem add_append (f : Fittings) (v w : Wiring) : f.add (v ++ w) = (f.add v).add w := by
  show f.add (v.append w) = _
  simp only [add, Wiring.append, List.foldl_append, List.append_assoc]

end Fittings

/-- What is bound when no host has been bound before. -/
def Wiring.fittings (w : Wiring) : Fittings := Fittings.add {} w

/-! ## Hosts from a root -/

/-- The children of a node that are visited in their turn. -/
def visitedNext {ι : Type} [DecidableEq ι] (root : ι) : NodeTree ι → List (NodeTree ι)
  | .node id content us =>
      if id ≠ root ∧ hasMarker Marker.block content.attributes = true then [] else us

theorem visitedNext_element {ι : Type} [DecidableEq ι] (root id : ι) (tag : String)
    (own : List (String × Value)) (us : List (NodeTree ι)) :
    visitedNext root (.node id (.element tag own) us) =
      if id ≠ root ∧ hasMarker Marker.block own = true then [] else us := rfl

theorem visitedNext_sublist {ι : Type} [DecidableEq ι] (root : ι) (t : NodeTree ι) :
    (visitedNext root t).Sublist t.children := by
  obtain ⟨id, content, us⟩ := t
  rw [visitedNext]
  split
  · exact List.nil_sublist us
  · exact List.Sublist.refl us

/-- The hosts that are found when a node is visited and then what is below it. -/
def hostsFrom {ι : Type} [DecidableEq ι] (root : ι) (t : NodeTree ι) : List ι :=
  if t.label = root then hostsOf t else hostsAt t

theorem flatMap_hostsFrom {ι : Type} [DecidableEq ι] {root : ι} {ts : List (NodeTree ι)}
    (out : root ∉ labelsAll ts) : ts.flatMap (hostsFrom root) = hostsAmong ts := by
  induction ts with
  | nil => rfl
  | cons t ts ih =>
      rw [labelsAll_cons, List.mem_append, not_or] at out
      have other : t.label ≠ root := fun same => out.1 (same ▸ label_mem_labels t)
      rw [List.flatMap_cons, hostsAmong, ih out.2, hostsFrom, if_neg other]

theorem hostsFrom_element {ι : Type} [DecidableEq ι] {root id : ι} {us : List (NodeTree ι)}
    (out : root ∉ labelsAll us) (tag : String) (own : List (String × Value)) :
    hostsFrom root (.node id (.element tag own) us) =
      (if hasMarker Marker.host own then [id] else []) ++
        (visitedNext root (.node id (.element tag own) us)).flatMap (hostsFrom root) := by
  have below : (visitedNext root (.node id (.element tag own) us)).flatMap (hostsFrom root) =
      if id ≠ root ∧ hasMarker Marker.block own = true then [] else hostsAmong us := by
    rw [visitedNext_element]
    split
    · rfl
    · exact flatMap_hostsFrom out
  rw [below, hostsFrom]
  by_cases top : id = root
  · have here : (NodeTree.node id (.element tag own) us).label = root := top
    rw [if_pos here, hostsOf, if_neg fun both : id ≠ root ∧ _ => both.1 top]
  · have other : (NodeTree.node id (.element tag own) us).label ≠ root := top
    rw [if_neg other, hostsAt]
    simp only [ne_eq, top, not_false_eq_true, true_and]

theorem hostsFrom_of_not_element {ι : Type} [DecidableEq ι] (root : ι) {t : NodeTree ι}
    (other : t.data.isElement = false) : hostsFrom root t = [] := by
  obtain ⟨id, content, us⟩ := t
  cases content with
  | element tag own => cases other
  | text | comment | fragment | doctype => exact ite_self []

/-! ## Visiting a node -/

theorem lookup_filter_of_ne {name other : String} (apart : other ≠ name)
    (own : List (String × Value)) :
    (own.filter (·.1 != name)).lookup other = own.lookup other := by
  induction own with
  | nil => rfl
  | cons entry own ih =>
      obtain ⟨key, value⟩ := entry
      by_cases same : key = name
      · rw [List.filter_cons_of_neg (by simp [same]), ih, List.lookup_cons, same, beq_false_of_ne apart]
      · rw [List.filter_cons_of_pos (by simpa using same), List.lookup_cons, List.lookup_cons, ih]

namespace Environment

variable {env : Environment} {d d₁ d' : Document} {id root : NodeId} {q : Option NodeId}
  {tag : String} {own : List (String × Value)} {us : List (NodeTree NodeId)} {size : Nat}
  {s : Search}

theorem hasAttribute_element {kids : List NodeId}
    (node : d.view id = some { data := .element tag own, parent := q, children := kids })
    (name : String) : Build.ask (·.hasAttribute id name) d = .ok (hasMarker name own) d := by
  refine Build.ask_ok ?_
  rw [hasAttribute, attributeValue?, known_attributes node]
  rfl

theorem isForeign_element {kids : List NodeId}
    (node : d.view id = some { data := .element tag own, parent := q, children := kids }) :
    isForeign root id d = .ok (decide (id ≠ root ∧ hasMarker Marker.block own = true)) d := by
  unfold isForeign
  by_cases top : id = root
  · simp [top]
  · simp [top, hasAttribute_element node Marker.block]

theorem descend_element
    (node : d.view id = some { data := .element tag own, parent := q, children := us.map label }) :
    descend root id s d = .ok { s with
      stack := (visitedNext root (.node id (.element tag own) us)).map label ++ s.stack } d := by
  have children : Build.ask (·.children id) d = .ok (us.map label) d :=
    Build.ask_ok (children_eq_ok node)
  unfold descend
  rw [bind_ok (isForeign_element node), visitedNext_element]
  by_cases inner : id ≠ root ∧ hasMarker Marker.block own = true
  · rw [if_pos (decide_eq_true inner), if_pos inner]
    rfl
  · rw [if_neg (by simpa using inner), if_neg inner]
    refine (bind_ok children).trans ?_
    rw [List.foldr_cons_eq_append']
    rfl

/-- A node that is no element is passed by. -/
theorem visit_other {n : Node} (node : d.view id = some n) (other : n.data.isElement = false) :
    env.visit root size id s d = .ok s d := by
  have asked : Build.ask (·.data id) d = .ok n.data d := Build.ask_ok (data_eq_ok node)
  unfold visit
  rw [bind_ok asked, other]
  rfl

theorem visit_element
    (node : d.view id = some { data := .element tag own, parent := q, children := us.map label }) :
    env.visit root size id s d =
      (if hasMarker Marker.host own then env.visitHost size id s >>= descend root id
        else descend root id s) d := by
  have asked : Build.ask (·.data id) d = .ok (.element tag own) d := Build.ask_ok (data_eq_ok node)
  unfold visit
  rw [bind_ok asked]
  refine (bind_ok (hasAttribute_element node Marker.host)).trans ?_
  rfl

/-- A host that has lost its marker shows the same children, to the same template. -/
theorem dropMarker_element (env : Environment) (accounted : d.Accounted) {kids : List NodeId}
    (node : d.view id = some { data := .element tag own, parent := q, children := kids }) :
    ∃ d' left, env.dropMarker id d = .ok () d' ∧ Preserves [id] d d' ∧
      d'.view id = some { data := .element tag left, parent := q, children := kids } ∧
      left.lookup Marker.block = own.lookup Marker.block := by
  unfold dropMarker
  cases env.keepMarkers with
  | true => exact ⟨d, own, rfl, .refl accounted _, node, rfl⟩
  | false =>
      have run : removeAttribute id Marker.host d = .ok () _ :=
        (bind_ok (ask_ok (known_attributes node))).trans (modifyNode_ok _ node)
      refine ⟨_, own.filter (·.1 != Marker.host), Build.edit_ok run, ⟨accounted.modify id _, fun {x n} out there => ?_⟩,
        ?_, lookup_filter_of_ne (by decide) own⟩
      · rw [view_modify, alter_of_ne _ _ (by simpa using out), there]
      · rw [view_modify, alter_self _ node]

/-! ## The search -/

/-- What is bound to a host is what is wired to it, put behind what there is, and nothing becomes
of the nodes that were there. -/
def Binds (binder : List Pattern → Binder) (wired : List Pattern → NodeId → Build Wiring) : Prop :=
  ∀ (inherited : List Pattern) (host : NodeId) (f : Fittings) (d : Document), d.Accounted →
    binder inherited host f d = (f.add <$> wired (inherited.drop f.parts.length) host) d ∧
      ∀ v d', wired (inherited.drop f.parts.length) host d = .ok v d' → Preserves [] d d'

/-- A slot is bound as it is wired. -/
def Simulates (env : Environment) (slot : List (Reference CompiledTemplate)) : Prop :=
  Binds (fun inherited => env.bindSlot inherited slot) fun inherited host =>
    env.wireSlot inherited host slot

theorem length_binders (env : Environment) (inherited : List Pattern)
    (slots : List (List (Reference CompiledTemplate))) :
    (env.binders inherited slots).length = slots.length := by
  induction slots with
  | nil => rfl
  | cons slot slots ih => rw [binders, List.length_cons, List.length_cons, ih]

/-- A host takes the next slot, and loses its marker. -/
theorem visitHost_ok {slot : Binder} {slots : List Binder} {stack : List NodeId} {m : Nat}
    {f f' : Fittings} (bound : slot id f d = .ok f' d₁) (dropped : env.dropMarker id d₁ = .ok () d') :
    env.visitHost size id { stack, slots := slot :: slots, markers := m, found := f } d =
      .ok { stack, slots, markers := m + 1, found := f' } d' := by
  rw [visitHost]
  dsimp only
  rw [bind_ok bound, bind_ok dropped]
  rfl

theorem visitHost_error {slot : Binder} {slots : List Binder} {stack : List NodeId} {m : Nat}
    {f : Fittings} {e : TemplateError} (refused : slot id f d = .error e d₁) :
    env.visitHost size id { stack, slots := slot :: slots, markers := m, found := f } d =
      .error e d₁ := by
  rw [visitHost]
  exact bind_error refused

/-- Trees that are still to be visited. -/
structure Pending (root : NodeId) (d : Document) (ts : List (NodeTree NodeId)) : Prop where
  stands : ∀ t ∈ ts, ∃ p, d.view.Stands p t
  nodup : (labelsAll ts).Nodup
  /-- The root is at the top of its tree. -/
  out : ∀ t ∈ ts, root ∉ labelsAll t.children

theorem Pending.tail {t : NodeTree NodeId} {ts : List (NodeTree NodeId)}
    (h : Pending root d (t :: ts)) : Pending root d ts where
  stands := (List.forall_mem_cons.1 h.stands).2
  nodup := h.nodup.sublist (by rw [labelsAll_cons]; exact List.sublist_append_right ..)
  out := (List.forall_mem_cons.1 h.out).2

/-- After a node come the trees below it. -/
theorem Pending.below {content : NodeData} {ts : List (NodeTree NodeId)}
    (h : Pending root d (.node id content us :: ts)) (kept : Preserves [id] d d') :
    Pending root d' (visitedNext root (.node id content us) ++ ts) ∧
      (labelsAll (visitedNext root (.node id content us) ++ ts)).Sublist (labelsAll us ++ labelsAll ts) := by
  obtain ⟨⟨p, own⟩, others⟩ := List.forall_mem_cons.1 h.stands
  obtain ⟨outside, outs⟩ := List.forall_mem_cons.1 h.out
  have nodup := h.nodup
  rw [labelsAll_cons, labels_node, List.cons_append, List.nodup_cons] at nodup
  have listed : visitedNext root (.node id content us) ⊆ us := (visitedNext_sublist root _).subset
  have sublist : (labelsAll (visitedNext root (.node id content us) ++ ts)).Sublist
      (labelsAll us ++ labelsAll ts) := by
    rw [labelsAll_append, visitedNext]
    split
    · exact List.sublist_append_right ..
    · exact List.Sublist.refl _
  refine ⟨⟨List.forall_mem_append.2 ⟨fun t mem => ?_, fun t mem => ?_⟩, nodup.2.sublist sublist,
    List.forall_mem_append.2 ⟨fun t mem => ?_, outs⟩⟩, sublist⟩
  · refine ⟨some id, kept.stands (standAll_iff.1 own.2 t (listed mem)) fun x inside same => ?_⟩
    exact nodup.1 (List.mem_append_left _
      (List.mem_singleton.1 same ▸ labels_subset_labelsAll (listed mem) x inside))
  · obtain ⟨q, stands⟩ := others t mem
    refine ⟨q, kept.stands stands fun x inside same => ?_⟩
    exact nodup.1 (List.mem_append_right _
      (List.mem_singleton.1 same ▸ labels_subset_labelsAll mem x inside))
  · intro inside
    obtain ⟨i, c, vs⟩ := t
    exact outside (labels_subset_labelsAll (listed mem) root (List.mem_cons_of_mem i inside))

/-- A search that has some trees on its stack gives their hosts the slots that are left, in
document order, and only nodes of the trees change. -/
structure Finds (env : Environment) (root : NodeId) (size : Nat) (inherited : List Pattern)
    (fuel : Nat) (slots : List (List (Reference CompiledTemplate))) (ts : List (NodeTree NodeId))
    (f : Fittings) (m : Nat) (d : Document) : Prop where
  same : env.search root size fuel
      { stack := ts.map label, slots := env.binders inherited slots, markers := m, found := f } d =
    (f.add <$> env.wireSlots (inherited.drop f.parts.length) size m
      (ts.flatMap (hostsFrom root)) slots) d
  kept : ∀ {w d'}, env.wireSlots (inherited.drop f.parts.length) size m
    (ts.flatMap (hostsFrom root)) slots d = .ok w d' → Preserves (labelsAll ts) d d'

namespace Finds

variable {inherited : List Pattern} {fuel m : Nat} {slot : List (Reference CompiledTemplate)}
  {slots : List (List (Reference CompiledTemplate))} {ts : List (NodeTree NodeId)} {f : Fittings}

/-- Where nothing is left to be visited, no slot may be left. -/
theorem nothing (accounted : d.Accounted) : env.Finds root size inherited fuel slots [] f m d := by
  cases slots with
  | nil =>
      refine ⟨?_, fun {w d'} run => ?_⟩
      · rw [List.flatMap_nil, wireSlots, map_ok (pure_run _ d), Fittings.add_nothing]
        cases fuel <;> rfl
      · rw [List.flatMap_nil, wireSlots] at run
        cases run
        exact .refl accounted _
  | cons slot slots =>
      refine ⟨?_, fun {w d'} run => ?_⟩
      · have refused : (throw (.unusedSlots (slots.length + 1) m) : Build Wiring) d =
            .error (.unusedSlots (slots.length + 1) m) d := rfl
        rw [List.flatMap_nil, wireSlots, map_error refused, ← List.length_cons, ← env.length_binders]
        cases fuel <;> rfl
      · rw [List.flatMap_nil, wireSlots] at run
        cases run

theorem pass {content : NodeData}
    (node : d.view id = some { data := content, parent := q, children := us.map label })
    (other : content.isElement = false) (h : env.Finds root size inherited fuel slots ts f m d) :
    env.Finds root size inherited (fuel + 1) slots (.node id content us :: ts) f m d := by
  have hostless : hostsFrom root (.node id content us) = [] := hostsFrom_of_not_element root other
  refine ⟨?_, fun {w d'} run => ?_⟩
  · rw [List.flatMap_cons, hostless, List.nil_append, List.map_cons, search]
    exact (bind_ok (visit_other node other)).trans h.same
  · rw [List.flatMap_cons, hostless, List.nil_append] at run
    exact (h.kept run).mono fun x mem => by simp [mem]

theorem unmarked
    (node : d.view id = some { data := .element tag own, parent := q, children := us.map label })
    (outside : root ∉ labelsAll us) (bare : hasMarker Marker.host own = false)
    (sub : labelsAll (visitedNext root (.node id (.element tag own) us) ++ ts) ⊆ labelsAll us ++ labelsAll ts)
    (h : env.Finds root size inherited fuel slots
      (visitedNext root (.node id (.element tag own) us) ++ ts) f m d) :
    env.Finds root size inherited (fuel + 1) slots (.node id (.element tag own) us :: ts) f m d := by
  have hosts : (NodeTree.node id (.element tag own) us :: ts).flatMap (hostsFrom root) =
      (visitedNext root (.node id (.element tag own) us) ++ ts).flatMap (hostsFrom root) := by
    rw [List.flatMap_cons, hostsFrom_element outside, bare, List.flatMap_append]
    rfl
  have visited : ∀ s : Search, env.visit root size id s d = descend root id s d := fun s => by
    rw [visit_element node, bare]
    rfl
  refine ⟨?_, fun {w d'} run => ?_⟩
  · rw [hosts, ← h.same, List.map_cons, List.map_append, search]
    exact bind_ok ((visited _).trans (descend_element node))
  · rw [hosts] at run
    exact (h.kept run).mono fun x mem => List.mem_cons_of_mem id (sub mem)

theorem missing
    (node : d.view id = some { data := .element tag own, parent := q, children := us.map label })
    (outside : root ∉ labelsAll us) (marked : hasMarker Marker.host own = true) :
    env.Finds root size inherited (fuel + 1) [] (.node id (.element tag own) us :: ts) f m d := by
  have hosts : ∃ more, (NodeTree.node id (.element tag own) us :: ts).flatMap (hostsFrom root) =
      id :: more := by
    rw [List.flatMap_cons, hostsFrom_element outside, marked]
    exact ⟨_, rfl⟩
  obtain ⟨more, hosts⟩ := hosts
  refine ⟨?_, fun {w d'} run => ?_⟩
  · have refused : (throw (.missingSlot (m + 1) size) : Build Wiring) d =
        .error (.missingSlot (m + 1) size) d := rfl
    rw [hosts, wireSlots, map_error refused, List.map_cons, search]
    refine bind_error ((visit_element node).trans ?_)
    rw [marked]
    exact bind_error rfl
  · rw [hosts, wireSlots] at run
    cases run

/-- A host is bound in the document as it was, and what is below it is visited in the document as
it is then. -/
theorem marked (accounted : d.Accounted)
    (node : d.view id = some { data := .element tag own, parent := q, children := us.map label })
    (outside : root ∉ labelsAll us) (host : hasMarker Marker.host own = true)
    (simulates : env.Simulates slot)
    (sub : labelsAll (visitedNext root (.node id (.element tag own) us) ++ ts) ⊆ labelsAll us ++ labelsAll ts)
    (next : ∀ {d₂ : Document} (v : Wiring), Preserves [id] d d₂ → env.Finds root size inherited fuel slots
      (visitedNext root (.node id (.element tag own) us) ++ ts) (f.add v) (m + 1) d₂) :
    env.Finds root size inherited (fuel + 1) (slot :: slots) (.node id (.element tag own) us :: ts)
      f m d := by
  have hosts : (NodeTree.node id (.element tag own) us :: ts).flatMap (hostsFrom root) =
      id :: (visitedNext root (.node id (.element tag own) us) ++ ts).flatMap (hostsFrom root) := by
    rw [List.flatMap_cons, hostsFrom_element outside, host, List.flatMap_append]
    rfl
  have visited : ∀ s : Search, env.visit root size id s d =
      (env.visitHost size id s >>= descend root id) d := fun s => by
    rw [visit_element node, host]
    rfl
  obtain ⟨bound, kept⟩ := simulates inherited id f d accounted
  cases run : env.wireSlot (inherited.drop f.parts.length) id slot d with
  | error e d₁ =>
      rw [map_error run] at bound
      refine ⟨?_, fun {w d'} wires => ?_⟩
      · rw [hosts, wireSlots, map_error (bind_error run), List.map_cons, search]
        exact bind_error ((visited _).trans (bind_error (visitHost_error bound)))
      · rw [hosts, wireSlots, bind_error run] at wires
        cases wires
  | ok v d₁ =>
      rw [map_ok run] at bound
      have kept₁ := kept v d₁ run
      obtain ⟨d₂, left, dropped, kept₂, node₂, blocks⟩ :=
        dropMarker_element env kept₁.accounted (kept₁.nodes List.not_mem_nil node)
      have both : Preserves [id] d d₂ := (kept₁.mono (List.nil_subset _)).trans kept₂
      have h := next v both
      have below : visitedNext root (.node id (.element tag left) us) =
          visitedNext root (.node id (.element tag own) us) := by
        rw [visitedNext_element, visitedNext_element, hasMarker, hasMarker, blocks]
      have parts : (inherited.drop f.parts.length).drop v.parts.length =
          inherited.drop (f.add v).parts.length := by
        rw [List.drop_drop, Fittings.add, List.length_append]
      refine ⟨?_, fun {w d'} wires => ?_⟩
      · have stepped := (visited _).trans ((bind_ok (visitHost_ok bound dropped)).trans
          (descend_element (s := ⟨ts.map label, env.binders inherited slots, m + 1, f.add v⟩) node₂))
        rw [below, ← List.map_append] at stepped
        rw [List.map_cons, search]
        refine (bind_ok stepped).trans (h.same.trans ?_)
        rw [hosts, wireSlots, map_bind, bind_ok run, map_bind, bind_ok dropped, map_bind, parts,
          map_eq_pure_bind]
        simp only [map_pure, Fittings.add_append]
      · rw [hosts, wireSlots, bind_ok run, bind_ok dropped] at wires
        obtain ⟨w', d₃, rest, done⟩ := of_bind_ok wires
        cases done
        rw [parts] at rest
        refine (both.mono ?_).trans ((h.kept rest).mono ?_)
        · exact fun x mem => by simp [List.mem_singleton.1 mem]
        · exact fun x mem => List.mem_cons_of_mem id (sub mem)

end Finds

/-- Where trees stand, a search that has them on its stack finds their hosts. -/
theorem finds_of_pending (inherited : List Pattern) (fuel : Nat)
    {slots : List (List (Reference CompiledTemplate))} (simulates : ∀ slot ∈ slots, env.Simulates slot)
    {ts : List (NodeTree NodeId)} (f : Fittings) (m : Nat) (accounted : d.Accounted)
    (pending : Pending root d ts) (enough : (labelsAll ts).length ≤ fuel) :
    env.Finds root size inherited fuel slots ts f m d := by
  induction fuel generalizing slots ts f m d with
  | zero =>
      cases ts with
      | nil => exact .nothing accounted
      | cons t ts =>
          obtain ⟨id, content, us⟩ := t
          simp at enough
  | succ fuel ih =>
      cases ts with
      | nil => exact .nothing accounted
      | cons t ts =>
          obtain ⟨id, content, us⟩ := t
          obtain ⟨p, own⟩ := (List.forall_mem_cons.1 pending.stands).1
          have outside : root ∉ labelsAll us := (List.forall_mem_cons.1 pending.out).1
          have room : (labelsAll us ++ labelsAll ts).length ≤ fuel := by
            rw [labelsAll_cons, labels_node, List.cons_append, List.length_cons] at enough
            exact Nat.le_of_succ_le_succ enough
          have below := fun {d₂ : Document} (kept : Preserves [id] d d₂) => pending.below kept
          have here := below (.refl accounted _)
          by_cases element : content.isElement = true
          · obtain ⟨tag, attributes, rfl⟩ : ∃ tag attributes, content = .element tag attributes := by
              cases content with
              | element tag attributes => exact ⟨tag, attributes, rfl⟩
              | text | comment | fragment | doctype => cases element
            cases host : hasMarker Marker.host attributes with
            | false =>
                exact .unmarked own.top outside host here.2.subset
                  (ih simulates f m accounted here.1 (Nat.le_trans here.2.length_le room))
            | true =>
                cases slots with
                | nil => exact .missing own.top outside host
                | cons slot slots =>
                    obtain ⟨first, others⟩ := List.forall_mem_cons.1 simulates
                    exact .marked accounted own.top outside host first here.2.subset fun v kept =>
                      ih others (f.add v) (m + 1) kept.accounted (below kept).1
                        (Nat.le_trans here.2.length_le room)
          · refine .pass own.top (by simpa using element)
              (ih simulates f m accounted pending.tail ?_)
            rw [List.length_append] at room
            omega

/-- The hosts of a standing tree are bound as if they had been listed. -/
theorem bindHosts_stands {slots : List (List (Reference CompiledTemplate))}
    (simulates : ∀ slot ∈ slots, env.Simulates slot) (inherited : List Pattern)
    (accounted : d.Accounted) {p : Option NodeId} {C : NodeTree NodeId}
    (stands : d.view.Stands p C) (nodup : C.labels.Nodup) :
    env.bindHosts (env.binders inherited slots) C.label d =
        (Wiring.fittings <$> env.wireSlots inherited slots.length 0 (hostsOf C) slots) d ∧
      ∀ {w d'}, env.wireSlots inherited slots.length 0 (hostsOf C) slots d = .ok w d' →
        Preserves C.labels d d' := by
  have alone : labelsAll [C] = C.labels := by rw [labelsAll_cons, labelsAll_nil, List.append_nil]
  have pending : Pending C.label d [C] := by
    refine ⟨List.forall_mem_singleton.2 ⟨p, stands⟩, alone ▸ nodup, List.forall_mem_singleton.2 ?_⟩
    obtain ⟨id, content, us⟩ := C
    exact (List.nodup_cons.1 nodup).1
  have hosts : [C].flatMap (hostsFrom C.label) = hostsOf C := by
    rw [List.flatMap_singleton, hostsFrom, if_pos rfl]
  have found : env.Finds C.label slots.length inherited d.slots.size slots [C] {} 0 d :=
    finds_of_pending inherited d.slots.size simulates {} 0 accounted pending
      (alone ▸ length_labels_le stands nodup)
  have asked : Build.ask (fun d => .ok d.slots.size) d = .ok d.slots.size d := Build.ask_ok rfl
  obtain ⟨same, kept⟩ := found
  rw [hosts] at same
  rw [hosts, alone] at kept
  refine ⟨?_, kept⟩
  rw [bindHosts, bind_ok asked, length_binders]
  exact same

/-! ## All templates -/

theorem binds_binding (b : Binding) :
    Binds (fun inherited => env.bindReference inherited (.binding b)) fun inherited host =>
      env.wireReference inherited host (.binding b) := by
  intro inherited host f d accounted
  dsimp only
  rw [bindReference, wireReference, map_bind]
  refine ⟨by simp [Fittings.add], fun v d' done => ?_⟩
  obtain ⟨bound, d₁, run, done⟩ := of_bind_ok done
  cases done
  cases bind_same run
  exact .refl accounted _

/-- A slot is bound reference by reference. -/
theorem simulates_cons {r : Reference CompiledTemplate} {rs : List (Reference CompiledTemplate)}
    (first : Binds (fun inherited => env.bindReference inherited r) fun inherited host =>
      env.wireReference inherited host r) (others : env.Simulates rs) : env.Simulates (r :: rs) := by
  intro inherited host f d accounted
  obtain ⟨bound, kept⟩ := first inherited host f d accounted
  dsimp only at bound kept ⊢
  rw [bindSlot, wireSlot]
  cases run : env.wireReference (inherited.drop f.parts.length) host r d with
  | error e d₁ =>
      rw [map_error run] at bound
      refine ⟨?_, fun v d' done => ?_⟩
      · rw [bind_error bound, map_error (bind_error run)]
      · rw [bind_error run] at done
        cases done
  | ok v d₁ =>
      rw [map_ok run] at bound
      have kept₁ := kept v d₁ run
      obtain ⟨same, more⟩ := others inherited host (f.add v) d₁ kept₁.accounted
      dsimp only at same more
      have parts : (inherited.drop f.parts.length).drop v.parts.length =
          inherited.drop (f.add v).parts.length := by
        rw [List.drop_drop, Fittings.add, List.length_append]
      refine ⟨?_, fun w d' done => ?_⟩
      · rw [bind_ok bound, same, map_bind, bind_ok run, map_bind, parts, map_eq_pure_bind]
        simp only [map_pure, Fittings.add_append]
      · rw [bind_ok run] at done
        obtain ⟨w', d₂, rest, done⟩ := of_bind_ok done
        cases done
        rw [parts] at rest
        exact kept₁.trans (more _ _ rest)

/-- A template to be repeated is built as it is assembled, if there is no pattern for it. -/
theorem binds_template {t : CompiledTemplate}
    (built : ∀ {d : Document}, d.Accounted → env.materialize t d = env.assemble t d ∧
      ∀ {made d'}, env.assemble t d = .ok made d' → Preserves [] d d') :
    Binds (fun inherited => env.bindReference inherited (.template t)) fun inherited host =>
      env.wireReference inherited host (.template t) := by
  intro inherited host f d accounted
  dsimp only
  rw [bindReference]
  cases inner : inherited.drop f.parts.length with
  | cons part others =>
      have found : inherited[f.parts.length]? = some part := by
        rw [← List.head?_drop, inner]
        rfl
      rw [found, wireReference_cons, map_bind]
      dsimp only
      rw [pure_bind]
      refine ⟨by simp [Fittings.add], fun v d' done => ?_⟩
      obtain ⟨placed, d₁, run, done⟩ := of_bind_ok done
      cases done
      cases region_same run
      exact .refl accounted _
  | nil =>
      have found : inherited[f.parts.length]? = none := by
        rw [← List.head?_drop, inner]
        rfl
      obtain ⟨same, kept⟩ := built accounted
      rw [found, wireReference_nil, map_bind]
      dsimp only
      rw [bind_map_left, bind_congr_run same]
      refine ⟨by simp [Fittings.add], fun v d' done => ?_⟩
      obtain ⟨made, d₁, run, done⟩ := of_bind_ok done
      obtain ⟨placed, d₂, placing, done⟩ := of_bind_ok done
      cases done
      cases region_same placing
      exact kept run

mutual

/-- A template is built as it is assembled, and nothing becomes of the nodes that were there. -/
theorem materialize_assembles : (t : CompiledTemplate) → {d : Document} → d.Accounted →
    env.materialize t d = env.assemble t d ∧
      ∀ {made d'}, env.assemble t d = .ok made d' → Preserves [] d d'
  | ⟨slots, skeleton, expression⟩, d, accounted => by
      have simulates := simulates_slots slots
      rw [materialize, assemble]
      cases planted : plantPrototype skeleton.markup d with
      | error e d₁ =>
          rw [bind_error planted, bind_error planted]
          refine ⟨rfl, fun {made d'} done => ?_⟩
          cases done
      | ok prototype d₁ =>
          obtain ⟨P, p, rfl, stands, nodup, new, trades⟩ := plantPrototype_stands accounted planted
          obtain ⟨C, d₂, copied, copy⟩ := copyTree_ok trades.accounted stands nodup
          obtain ⟨same, kept⟩ := bindHosts_stands simulates [] copy.trades.accounted copy.stands copy.nodup
          rw [bind_ok planted, bind_ok planted, bind_ok (Build.edit_ok copied),
            bind_ok (Build.edit_ok copied), bind_ok (hostsIn_stands copy.stands copy.nodup)]
          refine ⟨?_, fun {made d'} done => ?_⟩
          · rw [bind_congr_run same, bind_map_left]
            rfl
          · obtain ⟨w, d₃, wires, done⟩ := of_bind_ok done
            cases done
            have copied := (Preserves.of_trades copy.trades).trans_new (kept wires)
              fun x mem => copy.trades.fresh x mem List.not_mem_nil
            exact (Preserves.of_trades trades).trans copied

theorem simulates_slots : (slots : List (List (Reference CompiledTemplate))) →
    ∀ slot ∈ slots, env.Simulates slot
  | [] => List.forall_mem_nil _
  | slot :: slots => List.forall_mem_cons.2 ⟨simulates_slot slot, simulates_slots slots⟩

theorem simulates_slot : (slot : List (Reference CompiledTemplate)) → env.Simulates slot
  | [] => by
      intro inherited host f d accounted
      dsimp only
      rw [bindSlot, wireSlot, map_pure, Fittings.add_nothing]
      refine ⟨rfl, fun v d' done => ?_⟩
      cases done
      exact .refl accounted _
  | .binding b :: rs => simulates_cons (binds_binding b) (simulates_slot rs)
  | .template t :: rs => simulates_cons (binds_template (materialize_assembles t)) (simulates_slot rs)

end

/-! ## Building, wiring, copying -/

/-- Building a template gives what its assembly gives. -/
theorem materialize_eq (env : Environment) (accounted : d.Accounted) (t : CompiledTemplate) :
    env.materialize t d = env.assemble t d := (materialize_assembles t accounted).1

theorem wireHosts_stands (env : Environment) (inherited : List Pattern) (c : CompiledTemplate)
    {p : Option NodeId} {C : NodeTree NodeId} (stands : d.view.Stands p C) (nodup : C.labels.Nodup) :
    env.wireHosts inherited c C.label d =
      env.wireSlots inherited c.hostCount 0 (hostsOf C) c.slots d := by
  rw [wireHosts, bind_ok (hostsIn_stands stands nodup)]

/-- Wiring a standing tree gives what its hosts are given when they are listed. -/
theorem wire_stands (env : Environment) (inherited : List Pattern) (c : CompiledTemplate)
    (accounted : d.Accounted) {p : Option NodeId} {C : NodeTree NodeId}
    (stands : d.view.Stands p C) (nodup : C.labels.Nodup) :
    env.wire inherited c C.label d = (Wiring.fittings <$> env.wireHosts inherited c C.label) d := by
  have simulates : ∀ slot ∈ c.slots, env.Simulates slot := simulates_slots c.slots
  have same := (bindHosts_stands simulates inherited accounted stands nodup).1
  refine same.trans ?_
  rw [map_eq_pure_bind, map_eq_pure_bind]
  exact bind_congr_run (env.wireHosts_stands inherited c stands nodup).symm _

/-- A pattern whose prototype stands is copied as if the hosts of the copy were listed. -/
theorem instantiate_stands (env : Environment) (accounted : d.Accounted) {p : Pattern}
    {q : Option NodeId} {P : NodeTree NodeId} (stands : d.view.Stands q P) (nodup : P.labels.Nodup)
    (label : P.label = p.prototype) : env.instantiate p d = env.duplicate p d := by
  obtain ⟨C, d₁, copied, copy⟩ := copyTree_ok accounted stands nodup
  rw [label] at copied
  rw [instantiate, duplicate, bind_ok (Build.edit_ok copied), bind_ok (Build.edit_ok copied),
    bind_congr_run (env.wire_stands p.parts p.compiled copy.trades.accounted copy.stands copy.nodup),
    bind_map_left]
  rfl

/-- In a sound document all patterns are copied so. -/
theorem instantiate_eq (env : Environment) (sound : d.Sound) (p : Pattern) :
    env.instantiate p d = env.duplicate p d := by
  cases node : d.view p.prototype with
  | none =>
      have refused := Build.edit_error (copyTree_refused node)
      rw [instantiate, duplicate, bind_error refused, bind_error refused]
  | some n =>
      obtain ⟨P, -, label, stands⟩ := exists_tree sound.forest node
      exact env.instantiate_stands sound.accounted stands (sound.forest.nodup_labels P _ stands) label

end Environment

/-- A tree that is there is taken as if its hosts were listed. -/
theorem Template.ofNode_eq (env : Environment) {d : Document} (sound : d.Sound) (c : CompiledTemplate)
    (r : NodeId) :
    Template.ofNode env c r d = (do
      let prototype ← Build.edit (copyTree r)
      let w ← env.wireHosts [] c r
      return {
        environment := env
        pattern := { compiled := c, prototype, parts := w.parts }
        live := w.toInstance r } : Build Template) d := by
  unfold Template.ofNode
  cases node : d.view r with
  | none =>
      have refused := Build.edit_error (copyTree_refused node)
      rw [bind_error refused, bind_error refused]
  | some n =>
      obtain ⟨T, -, rfl, stands⟩ := exists_tree sound.forest node
      have nodup := sound.forest.nodup_labels T _ stands
      obtain ⟨P, d₁, copied, copy⟩ := copyTree_ok sound.accounted stands nodup
      have stands₁ := copy.trades.stands stands fun _ _ => List.not_mem_nil
      rw [bind_ok (Build.edit_ok copied), bind_ok (Build.edit_ok copied),
        bind_congr_run (env.wire_stands [] c copy.trades.accounted stands₁ nodup), bind_map_left]
      rfl

end Stencil
