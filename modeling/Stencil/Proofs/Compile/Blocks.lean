import Stencil.Proofs.Compile.Emission
import Stencil.Proofs.Document.Content

/-! # Blocks

A marked element gives way to a host of its name and attributes, and what was in it is
emitted as a template of its own. A marked only child is merged into its parent first.
-/

namespace Stencil

open Markup NodeTree View

/-! ## Attributes -/

namespace Document

variable {d : Document} {x y : NodeId} {q r : Option NodeId} {kids more : List NodeId}

theorem putField_new {name : String} (value : Value) {entries : List (String × Value)}
    (new : name ∉ entries.map Prod.fst) :
    Value.putField name value entries = entries ++ [(name, value)] := by
  induction entries with
  | nil => rfl
  | cons entry entries ih =>
      rw [List.map_cons, List.mem_cons, not_or] at new
      simp [Value.putField, Ne.symm new.1, ih new.2]

theorem filter_ne_of_not_mem {name : String} {entries : List (String × Value)}
    (out : name ∉ entries.map Prod.fst) : (entries.filter fun entry => entry.1 != name) = entries := by
  rw [List.filter_eq_self]
  intro entry mem
  have other : entry.1 ≠ name := by
    intro same
    exact out (List.mem_map.2 ⟨entry, mem, same⟩)
  simpa using other

/-- The attributes `done` of `x` have been looked at, the others not yet: all but the block marker
have moved to `y`. -/
structure Halfway (d : Document) (x y : NodeId) (source target : List (String × Value) → Node)
    (done others : List (String × Value)) : Prop where
  sound : d.Sound
  source : d.view x = some (source (done.filter (fun entry => entry.1 == Marker.block) ++ others))
  target : d.view y = some (target (done.filter fun entry => entry.1 != Marker.block))

namespace Halfway

variable {tag tag' : String} {done others : List (String × Value)} {entry : String × Value}

/-- The block marker stays. -/
theorem pass {source target : List (String × Value) → Node}
    (h : Halfway d x y source target done (entry :: others)) (block : entry.1 = Marker.block) :
    Halfway d x y source target (done ++ [entry]) others where
  sound := h.sound
  source := by simpa [block] using h.source
  target := by simpa [block] using h.target

/-- The next attribute is looked at: unless it is the block marker, it moves. -/
theorem move
    (h : Halfway d x y (fun own => { data := .element tag own, parent := q, children := kids })
      (fun own => { data := .element tag' own, parent := r, children := more })
      done (entry :: others)) (apart : x ≠ y)
    (nodup : ((done ++ entry :: others).map Prod.fst).Nodup) :
    ∃ d', Compile.moveAttribute x y entry.1 d = .ok () d' ∧
      Halfway d' x y (fun own => { data := .element tag own, parent := q, children := kids })
        (fun own => { data := .element tag' own, parent := r, children := more })
        (done ++ [entry]) others ∧
      ∀ z, z ≠ x → z ≠ y → d'.view z = d.view z := by
  unfold Compile.moveAttribute
  by_cases block : entry.1 = Marker.block
  · rw [if_pos block]
    exact ⟨d, rfl, h.pass block, fun _ _ _ => rfl⟩
  rw [if_neg block]
  obtain ⟨name, value⟩ := entry
  rw [List.map_append, List.map_cons] at nodup
  obtain ⟨-, behind, across⟩ := List.nodup_append.1 nodup
  obtain ⟨outOthers, -⟩ := List.nodup_cons.1 behind
  have outDone : name ∉ done.map Prod.fst := by
    intro mem
    exact across name mem name (by simp) rfl
  have outKept (keep : String × Value → Bool) : name ∉ (done.filter keep).map Prod.fst := by
    intro mem
    exact outDone ((List.filter_sublist.map Prod.fst).subset mem)
  have found : Edit.ask (·.attributeValue? x name) d = .ok (some value) d := by
    refine Edit.ask_ok ?_
    rw [known_value h.source, Compile.lookup_split (outKept _)]
  obtain ⟨d₁, set, sound₁, target₁, frame₁⟩ := setAttributeValue_ok h.sound h.target name value
  obtain ⟨d₂, removed, sound₂, source₂, frame₂⟩ :=
    removeAttribute_ok sound₁ ((frame₁ x apart).trans h.source) name
  refine ⟨d₂, ?_, ⟨sound₂, ?_, ?_⟩, fun z zx zy => by rw [frame₂ z zx, frame₁ z zy]⟩
  · rw [bind_ok found]
    exact (bind_ok set).trans removed
  · rw [source₂, List.filter_append, List.filter_cons, filter_ne_of_not_mem (outKept _),
      filter_ne_of_not_mem outOthers]
    simpa using block
  · rw [frame₂ y apart.symm, target₁, putField_new value (outKept _)]
    simp [show name ≠ Marker.block from block]

/-- All attributes are looked at. -/
theorem all
    (h : Halfway d x y (fun own => { data := .element tag own, parent := q, children := kids })
      (fun own => { data := .element tag' own, parent := r, children := more }) done others)
    (apart : x ≠ y) (nodup : ((done ++ others).map Prod.fst).Nodup) :
    ∃ d', (others.map Prod.fst).forM (Compile.moveAttribute x y) d = .ok () d' ∧
      Halfway d' x y (fun own => { data := .element tag own, parent := q, children := kids })
        (fun own => { data := .element tag' own, parent := r, children := more })
        (done ++ others) [] ∧
      ∀ z, z ≠ x → z ≠ y → d'.view z = d.view z := by
  induction others generalizing done d with
  | nil => exact ⟨d, rfl, by rwa [List.append_nil], fun _ _ _ => rfl⟩
  | cons entry others ih =>
      have next : done ++ entry :: others = (done ++ [entry]) ++ others := by simp
      obtain ⟨d₁, moved, halfway, frame⟩ := h.move apart nodup
      rw [next] at nodup ⊢
      obtain ⟨d', run, all, frame'⟩ := ih halfway nodup
      refine ⟨d', ?_, all, fun z zx zy => (frame' z zx zy).trans (frame z zx zy)⟩
      rw [List.map_cons, List.forM, bind_ok moved]
      exact run

end Halfway

/-- All attributes but the block marker move to an element that has none. -/
theorem moveAttributes_ok (h : d.Sound) {tag tag' : String} {own : List (String × Value)}
    (source : d.view x = some { data := .element tag own, parent := q, children := kids })
    (target : d.view y = some { data := .element tag' [], parent := r, children := more })
    (apart : x ≠ y) :
    ∃ d', Compile.moveAttributes x y d = .ok () d' ∧ d'.Sound ∧
      d'.view x = some {
        data := .element tag (own.filter fun entry => entry.1 == Marker.block), parent := q
        children := kids } ∧
      d'.view y = some {
        data := .element tag' (own.filter fun entry => entry.1 != Marker.block), parent := r
        children := more } ∧
      ∀ z, z ≠ x → z ≠ y → d'.view z = d.view z := by
  have start : Halfway d x y
      (fun own => { data := .element tag own, parent := q, children := kids })
      (fun own => { data := .element tag' own, parent := r, children := more }) [] own :=
    ⟨h, source, target⟩
  obtain ⟨d', run, moved, frame⟩ := start.all apart (h.forest.attributes source)
  have left := moved.source
  rw [List.append_nil] at left
  refine ⟨d', ?_, moved.sound, left, moved.target, frame⟩
  unfold Compile.moveAttributes
  rw [bind_ok (Edit.ask_ok (known_names source))]
  exact run

end Document

/-! ## Promoted children -/

theorem Markup.NodeTree.below_mem_labels {ι : Type} {t : NodeTree ι} {x : ι}
    (mem : x ∈ labelsAll t.children) : x ∈ t.labels := by
  cases t
  exact List.mem_cons_of_mem _ mem

/-- Where labels are distinct, a label below a tree is not that of a tree beside it. -/
theorem Markup.NodeTree.below_ne_label {ι : Type} {ts : List (NodeTree ι)} {t u : NodeTree ι}
    (nodup : (labelsAll ts).Nodup) (ht : t ∈ ts) (hu : u ∈ ts) {x : ι}
    (mem : x ∈ labelsAll t.children) : x ≠ u.label := by
  intro same
  have one := eq_of_mem_labels nodup hu ht (label_mem_labels u) (same ▸ below_mem_labels mem)
  subst one
  have unlike := nodup.sublist (labels_sublist_labelsAll ht)
  cases u with
  | node id data children =>
      rw [same] at mem
      exact (List.nodup_cons.1 unlike).1 mem

/-- What is above a node that has lost its children was above it before. -/
theorem View.Above.of_cleared {v v' : View} {x c : NodeId} {n : Node} (f : Forest v)
    (node : v x = some n) (node' : v' x = some { n with children := [] })
    (frame : ∀ y, y ≠ x → y ∉ n.children → v' y = v y) (h : Above v' c x) : Above v c x := by
  refine h.of_chain (f.rooted node) fun {y m} up there => ?_
  by_cases same : y = x
  · rw [same, node] at there
    cases there
    exact ⟨_, (congrArg v' same).trans node', rfl⟩
  · refine ⟨m, (frame y same fun child => ?_).trans there, rfl⟩
    obtain ⟨k, below, parent⟩ := f.child node child
    rw [there] at below
    cases below
    exact (f.rooted there).not_above_parent there parent up

namespace Compile

variable {w : Workbench} {x p : NodeId}

theorem merge_ok (s : Settings) (h : w.Sound) {name identity : String}
    {own : List (String × Value)} {children : List (NodeTree NodeId)} {m : NodeTree NodeId}
    (node : w.document.view x = some {
      data := .element name own, parent := some p, children := children.map label })
    (stands : w.document.view.StandAll (some x) children) (listed : m ∈ children) :
    ∃ w', merge s x m.label identity w = .ok () w' ∧ w'.hosts = w.hosts ∧ w'.document.Sound ∧
      w'.document.view x = some {
        data := .element name (Value.putField Marker.block (.string identity) own)
        parent := some p, children := m.children.map label } ∧
      w'.document.view.StandAll (some x) m.children ∧
      ∀ y, y ≠ x → y ∉ labelsAll children → w'.document.view y = w.document.view y := by
  have forest := h.document.forest
  have nodup := forest.nodup_labelsAll children x stands (forest.children_nodup node)
  have outside := forest.not_mem_labelsAll stands
  have inside : ∀ {y}, y ∈ m.labels → y ∈ labelsAll children := fun mem =>
    labels_subset_labelsAll listed _ mem
  -- no node below the promoted child is itself a child of `x`
  have deep : ∀ {y}, y ∈ labelsAll m.children → y ∉ children.map label := by
    intro y mem other
    obtain ⟨u, sibling, rfl⟩ := List.mem_map.1 other
    exact below_ne_label nodup listed sibling mem rfl
  have not_marker : ∀ {y}, y ∈ labelsAll m.children → y ≠ m.label := fun mem =>
    below_ne_label nodup listed listed mem
  have grand : (labelsAll m.children).Nodup := by
    have unlike := nodup.sublist (labels_sublist_labelsAll listed)
    cases m
    exact (List.nodup_cons.1 unlike).2
  have marker : x ≠ m.label := fun same => outside (same ▸ inside (label_mem_labels m))
  obtain ⟨d₁, set, sound₁, node₁, frame₁⟩ :=
    Document.setAttributeValue_ok h.document node Marker.block (.string identity)
  have stands₁ : d₁.view.StandAll (some x) children :=
    standAll_congr _ children (fun y mem => frame₁ y fun same => outside (same ▸ mem)) stands
  obtain ⟨d₂, cleared, sound₂, node₂, tops₂, frame₂⟩ := Document.clear_ok sound₁ node₁
  have holder₂ := tops₂ m.label (List.mem_map_of_mem listed) _ (standAll_iff.1 stands₁ m listed).top
  have kept₂ : ∀ {y}, y ∈ labelsAll m.children → d₂.view y = d₁.view y := fun mem =>
    frame₂ _ (fun same => outside (same ▸ inside (below_mem_labels mem))) (deep mem)
  have stands₂ : d₂.view.StandAll (some m.label) m.children :=
    standAll_congr _ m.children (fun y mem => kept₂ mem) (standAll_iff.1 stands₁ m listed).children
  have apart : ∀ c ∈ m.children.map label, ¬d₂.view.Above c x := by
    intro c mem above
    obtain ⟨u, below, rfl⟩ := List.mem_map.1 mem
    have top := (standAll_iff.1 (standAll_iff.1 stands₁ m listed).children u below).top
    exact (sound₁.forest.rooted top).not_above_parent top rfl
      (.step (standAll_iff.1 stands₁ m listed).top rfl
        (above.of_cleared sound₁.forest node₁ node₂ frame₂))
  obtain ⟨d₃, moved, sound₃, node₃, holder₃, tops₃, frame₃⟩ :=
    Document.moveChildren_ok sound₂ node₂ rfl holder₂ marker apart
  have alone : d₃.view.Stands none (.node m.label m.data []) := ⟨holder₃, trivial⟩
  obtain ⟨d₄, released, sound₄, frame₄⟩ := Document.release_root_ok sound₃ alone
  have kept₄ : ∀ y, y ≠ m.label → d₄.view y = d₃.view y := by
    intro y other
    exact frame₄ y (by simpa using other)
  have moved₄ : d₄.view.StandAll (some x) m.children := by
    refine standAll_reparent stands₂ grand (fun y top n there => ?_) fun y mem out => ?_
    · rw [kept₄ _ (not_marker ((map_label_sublist _).subset top))]
      exact tops₃ y top n there
    · rw [kept₄ _ (not_marker mem)]
      exact frame₃ y (fun same => outside (same ▸ inside (below_mem_labels mem))) (not_marker mem)
        out
  obtain ⟨steps, reported⟩ := trace_ok s.config (fun _ => "promote block '" ++ identity ++ "'") w
  refine ⟨{ w with document := d₄, steps := steps }, ?_, rfl, sound₄, ?_, moved₄,
    fun y yx mem => ?_⟩
  · unfold merge
    rw [bind_ok reported]
    refine edit_ok ?_
    rw [Document.setAttribute, bind_ok set, bind_ok cleared, bind_ok moved]
    exact released
  · rw [kept₄ x marker]
    exact node₃
  · have ym : y ≠ m.label := fun same => mem (same ▸ inside (label_mem_labels m))
    have child : y ∉ children.map label := fun listed => mem ((map_label_sublist _).subset listed)
    have notGrand : y ∉ m.children.map label := by
      intro listed
      have below := (map_label_sublist m.children).subset listed
      exact mem (inside (below_mem_labels below))
    rw [kept₄ y ym, frame₃ y yx ym notGrand, frame₂ y yx child, frame₁ y yx]

/-- Below `p` the nodes `old` have given way to the trees of a sketch, and the parts of the
sketch have been copied. -/
def Carried (w : Workbench) (p : NodeId) (g : Gap) (old : List NodeId) (sketch : Plan.Sketch)
    (w' : Workbench) : Prop :=
  ∃ us, Grown w w' p g old us sketch.trees ∧
    ∀ part ∈ sketch.parts,
      Copied w'.document.view (fun x => x ∈ old ∨ w.document.view x = none) part

/-! ## Elements below a node -/

/-- Below `p` the element `x` has got its references and holds the trees `kids`; nothing else
has changed since `w` but `x` and the nodes `below` it. -/
structure Opened (w w₁ : Workbench) (p x : NodeId) (g : Gap) (name : String)
    (own : List (String × Value)) (slot : Slot) (kids : List (NodeTree NodeId))
    (below : List NodeId) : Prop where
  sound : w₁.Sound
  host : w₁.document.view p = some (g.fill [x])
  node : w₁.document.view x = some {
    data := .element name own, parent := some p, children := kids.map label }
  stands : w₁.document.view.StandAll (some x) kids
  inside : ∀ y ∈ labelsAll kids, y ∈ below
  outside : p ∉ below
  frame : ∀ y, y ≠ x → y ∉ below → w.document.view y ≠ none →
    w₁.document.view y = w.document.view y
  slot : w₁.hosts.slotOf x = slot
  others : ∀ y, y ≠ x → w₁.hosts.slotOf y = w.hosts.slotOf y
  bare : ∀ y, y = x ∨ y ∈ below → w.hosts.slotOf y = []

namespace Opened

variable {w w₁ w₂ : Workbench} {p x : NodeId} {g : Gap} {name : String}
  {own : List (String × Value)} {slot : Slot} {kids us : List (NodeTree NodeId)}
  {below : List NodeId} {trees : List (NodeTree Slot)}

theorem apart (o : Opened w w₁ p x g name own slot kids below) : p ≠ x := by
  intro same
  subst same
  exact (o.sound.document.forest.rooted o.node).not_above_parent o.node rfl .self

/-- A number that is not in use has not been before, unless by a node that is gone. -/
theorem old_or_fresh (o : Opened w w₁ p x g name own slot kids below) {y : NodeId}
    (fresh : w₁.document.view y = none) : y ∈ x :: below ∨ w.document.view y = none := by
  by_cases known : y ∈ x :: below
  · exact .inl known
  · refine .inr (Classical.byContradiction fun there => there ?_)
    rw [List.mem_cons, not_or] at known
    rw [← o.frame y known.1 known.2 there, fresh]

/-- The element stays, with other trees below it. -/
theorem element (o : Opened w w₁ p x g name own slot kids below)
    (inner : Grown w₁ w₂ x (.inside (.element name own) (some p)) (labelsAll kids) us trees) :
    Grown w w₂ p g (x :: below) [.node x (.element name own) us]
      [.node slot (.element name own) trees] := by
  have xs : x ∉ labelsAll us := inner.parent_not_mem
  refine ⟨inner.sound, ?_, ⟨⟨?_, inner.stands⟩, trivial⟩, ?_, fun y yp mem there => ?_,
    fun y mem => ?_, fun y mem => ?_⟩
  · have live : w₁.document.view p ≠ none := by simp [o.host]
    rw [inner.frame p o.apart (fun mem => o.outside (o.inside p mem)) live, o.host]
    rfl
  · rw [inner.host, Gap.fill_inside]
  · have same : w₂.hosts.slotOf x = slot := by rw [inner.others x xs, o.slot]
    simp [NodeTree.map, same, inner.shown]
  · rw [List.mem_cons, not_or] at mem
    have still := o.frame y mem.1 mem.2 there
    rw [inner.frame y mem.1 (fun deep => mem.2 (o.inside y deep)) (still ▸ there), still]
  · have listed : y = x ∨ y ∈ labelsAll us := by simpa using mem
    rcases listed with rfl | deep
    · exact .inl (by simp)
    · rcases inner.fresh y deep with known | fresh
      · exact .inl (by simp [o.inside y known])
      · exact o.old_or_fresh fresh
  · have other : y ≠ x ∧ y ∉ labelsAll us := by simpa using mem
    rw [inner.others y other.2, o.others y other.1]

/-- A promoted child gives its children to the element. -/
theorem merge (o : Opened w w₁ p x g name own slot kids (labelsAll kids)) (s : Settings)
    (identity : String) {m : NodeTree NodeId} (listed : m ∈ kids) :
    ∃ w₂, Compile.merge s x m.label identity w₁ = .ok () w₂ ∧
      Opened w w₂ p x g name (Value.putField Marker.block (.string identity) own) slot m.children
        (labelsAll kids) := by
  obtain ⟨w₂, run, table, sound, node, stands, frame⟩ :=
    merge_ok s o.sound o.node o.stands listed
  refine ⟨w₂, run, ⟨sound, ?_, fun {y t} there => ?_⟩, ?_, node, stands, fun y mem => ?_, o.outside,
    fun y yx mem there => ?_, by rw [table, o.slot], fun y yx => by rw [table, o.others y yx], o.bare⟩
  · rw [table]
    exact o.sound.aligned
  · rw [table] at there
    obtain ⟨filled, live⟩ := o.sound.live there
    refine ⟨filled, ?_⟩
    by_cases yx : y = x
    · simp [yx, node]
    · -- a node below the element is no host
      have out : y ∉ labelsAll kids := by
        intro mem
        rw [← Hosts.slotOf_eq there, o.others y yx, o.bare y (.inr mem)] at filled
        exact filled rfl
      rwa [frame y yx out]
  · rw [frame p o.apart o.outside, o.host]
  · exact labels_subset_labelsAll listed y (below_mem_labels mem)
  · have same := o.frame y yx mem there
    rw [frame y yx mem, same]

end Opened

/-! ## Extracting -/

section Extracting

variable {w w₁ : Workbench} {p x : NodeId} {g : Gap} {name : String}
  {own : List (String × Value)} {slot : Slot} {kids : List (NodeTree NodeId)}
  {below : List NodeId}

/-- A host of the same name and attributes takes the place of an element. -/
theorem exchange_ok (o : Opened w w₁ p x g name own slot kids below) :
    ∃ c d₂ d₃ d₄, Document.createElement name w₁.document = .ok c d₂ ∧
      moveAttributes x c d₂ = .ok () d₃ ∧ d₃.parent x = .ok (some p) ∧
      Document.replace p c x d₃ = .ok () d₄ ∧ d₄.Sound ∧ w₁.document.view c = none ∧
      d₄.view p = some (g.fill [c]) ∧
      d₄.view c = some {
        data := .element (Text.lower name) (own.filter fun entry => entry.1 != Marker.block)
        parent := some p, children := [] } ∧
      d₄.view x = some {
        data := .element name (own.filter fun entry => entry.1 == Marker.block)
        parent := none, children := kids.map label } ∧
      ∀ y, y ≠ p → y ≠ c → y ≠ x → d₄.view y = w₁.document.view y := by
  obtain ⟨c, d₂, created, sound₂, fresh, node₂, frame₂⟩ :=
    Document.createElement_ok o.sound.document name
  have xc : x ≠ c := by
    intro same
    rw [← same, o.node] at fresh
    cases fresh
  have pc : p ≠ c := by
    intro same
    rw [← same, o.host] at fresh
    cases fresh
  obtain ⟨d₃, moved, sound₃, source₃, target₃, frame₃⟩ :=
    Document.moveAttributes_ok sound₂ ((frame₂ x xc).trans o.node) node₂ xc
  have host₃ : d₃.view p = some {
      data := g.data, parent := g.parent, children := g.before ++ x :: g.after } := by
    rw [frame₃ p o.apart pc, frame₂ p pc, o.host]
    simp [Gap.fill]
  obtain ⟨d₄, replaced, sound₄, host₄, new₄, old₄, frame₄⟩ :=
    Document.replace_child_ok sound₃ host₃ target₃ (by simp) pc.symm source₃
  refine ⟨c, d₂, d₃, d₄, created, moved, Document.parent_eq_ok source₃, replaced, sound₄, fresh, ?_,
    new₄, old₄, fun y yp yc yx => ?_⟩
  · rw [host₄]
    simp [Gap.fill]
  · rw [frame₄ y yp yc yx, frame₃ y yx yc, frame₂ y yc]

theorem filter_block_nil (own : List (String × Value)) :
    (own.filter fun entry => entry.1 == Marker.block).filter (fun entry => entry.1 != Marker.block) =
      [] := by
  rw [List.filter_filter, List.filter_eq_nil_iff]
  intro entry _
  simp

/-- What is below `x` has been made a part, and nothing else has changed since `d`. -/
structure Extracted (d : Document) (x : NodeId) (name identity : String)
    (kids : List (NodeTree NodeId)) (part : CompiledTemplate) (sketch : Plan.Sketch)
    (d' : Document) : Prop where
  compiled : part = (Plan.part name identity sketch).compiled
  sound : d'.Sound
  copied : Copied d'.view (fun y => y ∈ labelsAll kids ∨ d.view y = none)
    (Plan.part name identity sketch)
  frame : ∀ y, y ≠ x → y ∉ labelsAll kids → d.view y ≠ none → d'.view y = d.view y

/-- What is below a bare element without a parent is compiled, and the element emitted. -/
theorem emitted_follows (identity : String) {body : Compile Unit}
    {plan : Except SyntaxError Plan.Sketch}
    (solid : ∀ sketch, plan = .ok sketch → Plan.Solid sketch.trees)
    (bare : w.hosts.slotOf x = [])
    (inner : Follows body plan
      (fun _ => Carried w x (.inside (.element name []) none) (labelsAll kids)) w) :
    Follows (body >>= fun _ => emit x (some identity)) plan
      (fun part sketch w' =>
        Extracted w.document x name identity kids part sketch w'.document) w := by
  refine inner.andThen ?_
  intro _ sketch w₂ planned outcome
  obtain ⟨us, grown, copies⟩ := outcome
  have top : w₂.document.view.Stands none (.node x (.element name []) us) := by
    refine ⟨?_, grown.stands⟩
    rw [grown.host, Gap.fill_inside]
  have shown : (NodeTree.node x (.element name []) us).map w₂.hosts.slotOf =
      (Plan.part name identity sketch).tree := by
    rw [NodeTree.map, grown.others x grown.parent_not_mem, bare, mapAll_eq_map, grown.shown]
    rfl
  have hosts : Plan.Solid [(NodeTree.node x (.element name []) us).map w₂.hosts.slotOf] := by
    rw [shown]
    intro t listed
    refine solid sketch planned t ?_
    simpa [Plan.hostsAll, Plan.hosts, Plan.part, Plan.tree] using listed
  obtain ⟨w', c, emitted, sound', standing, shape, fresh, frame⟩ :=
    emit_ok grown.sound top hosts (some identity)
  rw [shown] at emitted shape
  refine ⟨_, w', emitted, rfl, sound', .intro standing shape (fun y mem => ?_) fun part mem => ?_,
    fun y yx mem there => ?_⟩
  · exact grown.old_or_fresh (fresh y mem)
  · exact (copies part mem).mono (fun y _ live => frame y live) fun _ => id
  · have still := grown.frame y yx mem there
    exact (frame y (still ▸ there)).trans still

/-- The block marker is looked at but never bound. -/
theorem bindMarkers (s : Settings) (names : List String) (markers : ∀ name ∈ names, name = Marker.block)
    (w : Workbench) : names.forM (bindAttribute s x) w = .ok () w := by
  induction names with
  | nil => rfl
  | cons name names ih =>
      have skipped : bindAttribute s x name w = .ok () w := by
        rw [bindAttribute, if_pos (markers name (List.mem_cons_self ..))]
        rfl
      rw [List.forM, bind_ok skipped]
      exact ih fun name mem => markers name (List.mem_cons_of_mem _ mem)

/-- An element is reported, and has no other attribute than the block marker. -/
theorem enter_ok (s : Settings) {q : Option NodeId} {listed : List NodeId}
    (node : w.document.view x = some {
      data := .element name (own.filter fun entry => entry.1 == Marker.block), parent := q
      children := listed }) :
    ∃ steps, enter s x name w = .ok () { w with steps } := by
  obtain ⟨steps, reported⟩ := trace_ok s.config (fun _ => "process element <" ++ name ++ ">") w
  have markers : ∀ name ∈ (own.filter fun entry => entry.1 == Marker.block).map Prod.fst,
      name = Marker.block := by
    intro name mem
    obtain ⟨entry, kept, rfl⟩ := List.mem_map.1 mem
    simpa using (List.mem_filter.1 kept).2
  refine ⟨steps, ?_⟩
  rw [enter, bind_ok reported, bindAttributes, bind_ok (ask_ok (Document.known_names node))]
  exact bindMarkers s _ markers _

/-- The block marker is found among the attributes that are no others. -/
theorem lookup_filter_block (own : List (String × Value)) :
    (own.filter fun entry => entry.1 == Marker.block).lookup Marker.block =
      own.lookup Marker.block := by
  induction own with
  | nil => rfl
  | cons entry own ih =>
      obtain ⟨name, value⟩ := entry
      by_cases found : name = Marker.block
      · simp [found]
      · have other : (Marker.block == name) = false := by simpa using Ne.symm found
        rw [List.filter_cons_of_neg (by simpa using found), List.lookup_cons, other]
        exact ih

/-- An element without a parent loses its block marker, and with it the last of its attributes;
what is left of compiling it is to visit its children and to emit it. -/
theorem bare_ok (s : Settings) {identity : String} (visit : NodeId → Compile Unit)
    (sound : w.document.Sound) (marked : blockOf? own = some identity)
    (node : w.document.view x = some {
      data := .element name (own.filter fun entry => entry.1 == Marker.block), parent := none
      children := kids.map label })
    (stands : w.document.view.StandAll (some x) kids) :
    ∃ w₁ : Workbench, w₁.Sound ∧ (∀ y, w₁.hosts.slotOf y = []) ∧
      w₁.document.view x = some {
        data := .element name [], parent := none, children := kids.map label } ∧
      w₁.document.view.StandAll (some x) kids ∧
      (∀ y, y ≠ x → w₁.document.view y = w.document.view y) ∧
      ∃ body, part s x visit = withHosts body ∧ body { w with hosts := {} } =
        ((kids.map label).forM visit >>= fun _ => emit x (some identity)) w₁ := by
  obtain ⟨d, removed, sound', node', frame⟩ :=
    Document.removeAttribute_ok sound node Marker.block
  rw [filter_block_nil] at node'
  have tag : ask (·.tagName x) { w with hosts := {} } = .ok name { w with hosts := {} } :=
    ask_ok (Document.known_tag node)
  obtain ⟨steps, entered⟩ := enter_ok (w := { w with hosts := {} }) s node
  have value : ask (·.attribute? x Marker.block) { w with hosts := {}, steps } =
      .ok (some identity) { w with hosts := {}, steps } := by
    refine ask_ok ?_
    rw [Document.known_attribute node, lookup_filter_block]
    exact congrArg _ marked
  have gone : edit (Document.removeAttribute x Marker.block) { w with hosts := {}, steps } =
      .ok () { document := d, hosts := {}, steps } := edit_ok removed
  have below : ask (·.children x) { document := d, hosts := {}, steps } =
      .ok (kids.map label) { document := d, hosts := {}, steps } :=
    ask_ok (Document.children_eq_ok node')
  refine ⟨{ document := d, hosts := {}, steps }, ⟨sound', Hosts.aligned_empty, fun there => by cases there⟩,
    fun _ => rfl, node', standAll_congr (some x) kids (fun y mem => frame y fun same => ?_) stands,
    frame, _, rfl, ?_⟩
  · exact sound.forest.not_mem_labelsAll stands (same ▸ mem)
  · exact (bind_ok tag).trans ((bind_ok entered).trans ((bind_ok value).trans ((bind_ok gone).trans
      (bind_ok below))))

/-- An element without a parent is compiled as a template of its own. -/
theorem part_follows (s : Settings) {identity : String} {visit : NodeId → Compile Unit}
    {plan : Except SyntaxError Plan.Sketch} (sound : w.document.Sound)
    (marked : blockOf? own = some identity)
    (node : w.document.view x = some {
      data := .element name (own.filter fun entry => entry.1 == Marker.block), parent := none
      children := kids.map label })
    (stands : w.document.view.StandAll (some x) kids)
    (solid : ∀ sketch, plan = .ok sketch → Plan.Solid sketch.trees)
    (inner : ∀ w₁ : Workbench, w₁.Sound →
      w₁.document.view x = some {
        data := .element name [], parent := none, children := kids.map label } →
      w₁.document.view.StandAll (some x) kids → (∀ y, w₁.hosts.slotOf y = []) →
      Follows ((kids.map label).forM visit) plan
        (fun _ => Carried w₁ x (.inside (.element name []) none) (labelsAll kids)) w₁) :
    Follows (part s x visit) plan
      (fun part sketch w' => w'.hosts = w.hosts ∧
        Extracted w.document x name identity kids part sketch w'.document) w := by
  obtain ⟨w₁, sound₁, bare, node₁, stands₁, frame₁, body, same, begins⟩ :=
    bare_ok s visit sound marked node stands
  have unused : ∀ y, w₁.document.view y = none → w.document.view y = none := by
    intro y fresh
    have other : y ≠ x := by
      intro same
      rw [same, node₁] at fresh
      cases fresh
    rw [← frame₁ y other, fresh]
  rw [same]
  refine Follows.withHosts (.via begins
    (emitted_follows identity solid (bare x) (inner w₁ sound₁ node₁ stands₁ bare))) ?_
  intro part sketch inner made
  exact ⟨rfl, made.compiled, made.sound,
    made.copied.mono (fun _ _ _ => rfl) fun y => .imp_right (unused y), fun y yx mem there =>
      (made.frame y yx mem ((frame₁ y yx).symm ▸ there)).trans (frame₁ y yx)⟩

/-- What the table is when the host has taken the place of the element `x`. -/
structure Rekeyed (h h' : Hosts) (x c : NodeId) : Prop where
  aligned : h'.Aligned
  new : h'.slotOf c = h.slotOf x
  old : h'.slot? x = none
  others : ∀ y, y ≠ x → y ≠ c → h'.slot? y = h.slot? y

/-- The slot of an element is given to a number that is not in use, or is new there. -/
theorem Rekeyed.of_fresh {c : NodeId} (sound : w₁.Sound) (node : w₁.document.view x ≠ none)
    (fresh : w₁.document.view c = none) :
    (w₁.hosts.rekey? x c = none ∧ Rekeyed w₁.hosts (w₁.hosts.hostFor c).2 x c) ∨
      ∃ id hosts, w₁.hosts.rekey? x c = some (id, hosts) ∧ Rekeyed w₁.hosts hosts x c := by
  have absent := sound.slot?_of_fresh fresh
  cases there : w₁.hosts.slot? x with
  | none =>
      have others : ∀ y, y ≠ c → (w₁.hosts.hostFor c).2.slot? y = w₁.hosts.slot? y := by
        intro y yc
        rw [sound.aligned.slot?_hostFor, if_neg yc]
      have new : (w₁.hosts.hostFor c).2.slot? c = some (w₁.hosts.slotOf c) := by
        rw [sound.aligned.slot?_hostFor, if_pos rfl]
      have xc : x ≠ c := fun same => node (same ▸ fresh)
      refine .inl ⟨Hosts.rekey?_eq_none.2 (sound.aligned.slot?_eq_none.1 there),
        sound.aligned.hostFor c, ?_, (others x xc).trans there, fun y _ yc => others y yc⟩
      rw [Hosts.slotOf_eq new, Hosts.slotOf_eq_nil there, Hosts.slotOf_eq_nil absent]
  | some t =>
      obtain ⟨id, found, -⟩ := Hosts.find?_of_slot? there
      have xc : x ≠ c := fun same => node (same ▸ fresh)
      refine .inr ⟨id, _, Hosts.rekey?_of_find? found,
        sound.aligned.rekeyed found (sound.aligned.slot?_eq_none.1 absent), ?_, ?_,
        fun y yx yc => ?_⟩
      · rw [Hosts.slotOf, Hosts.slot?_rekeyed found, if_pos rfl]
        rfl
      · rw [Hosts.slot?_rekeyed found, if_neg xc, if_pos rfl]
      · rw [Hosts.slot?_rekeyed found, if_neg yc, if_neg yx]

theorem Rekeyed.grown {w₂ : Workbench} {c : NodeId} {d : Document} {hosts : Hosts}
    {kept : List (String × Value)} (o : Opened w w₁ p x g name own slot kids below)
    (rekeyed : Rekeyed w₁.hosts hosts x c) (fresh : w₁.document.view c = none)
    (host : d.view p = some (g.fill [c]))
    (node : d.view c = some {
      data := .element (Text.lower name) kept, parent := some p, children := [] })
    (before : ∀ y, y ≠ p → y ≠ c → y ≠ x → d.view y = w₁.document.view y)
    (sound : w₂.document.Sound) (table : w₂.hosts = hosts)
    (frame : ∀ y, y ≠ x → y ∉ labelsAll kids → d.view y ≠ none → w₂.document.view y = d.view y)
    (r : Reference CompiledTemplate) :
    Grown w { w₂ with hosts := w₂.hosts.add c r } p g (x :: below)
      [.node c (.element (Text.lower name) kept) []]
      [.node (slot ++ [r]) (.element (Text.lower name) kept) []] := by
  have notOld : ∀ y ∈ labelsAll kids, w₁.document.view y ≠ none := by
    intro y mem
    obtain ⟨t, listed, q, u, inside, rfl⟩ := exists_withinAll (some x) kids y mem
    exact (standAll_iff.1 o.stands t listed).live inside.label_mem
  have xc : c ≠ x := by
    intro same
    rw [same, o.node] at fresh
    cases fresh
  have outP : p ∉ labelsAll kids := fun mem => o.outside (o.inside p mem)
  have outC : c ∉ labelsAll kids := fun mem => notOld c mem fresh
  have host' : w₂.document.view p = some (g.fill [c]) := by
    rw [frame p o.apart outP (by simp [host]), host]
  have node' : w₂.document.view c = some {
      data := .element (Text.lower name) kept, parent := some p, children := [] } := by
    rw [frame c xc outC (by simp [node]), node]
  have still : ∀ y, y ≠ p → y ≠ x → y ∉ labelsAll kids → w₁.document.view y ≠ none →
      w₂.document.view y = w₁.document.view y := by
    intro y yp yx mem there
    have yc : y ≠ c := fun same => there (same ▸ fresh)
    have same := before y yp yc yx
    rw [frame y yx mem (same ▸ there), same]
  subst table
  have slots : (w₂.hosts.add c r).slotOf c = slot ++ [r] := by
    rw [rekeyed.aligned.slotOf_add, rekeyed.new, o.slot]
  refine ⟨⟨sound, rekeyed.aligned.add c r, fun {y t} there => ?_⟩, host', ⟨⟨node', trivial⟩, trivial⟩,
    ?_, fun y yp mem there => ?_, fun y mem => ?_, fun y mem => ?_⟩
  · by_cases yc : y = c
    · subst yc
      rw [rekeyed.aligned.slot?_add] at there
      cases there
      exact ⟨by simp, by simp [node']⟩
    · rw [rekeyed.aligned.slot?_add_of_ne _ yc] at there
      have yx : y ≠ x := by
        intro same
        rw [same, rekeyed.old] at there
        cases there
      rw [rekeyed.others y yx yc] at there
      obtain ⟨filled, live⟩ := o.sound.live there
      refine ⟨filled, ?_⟩
      by_cases yp : y = p
      · simp [yp, host']
      · -- a node below the element is no host
        have out : y ∉ labelsAll kids := by
          intro mem
          rw [← Hosts.slotOf_eq there, o.others y yx, o.bare y (.inr (o.inside y mem))] at filled
          exact filled rfl
        rwa [show w₂.document.view y = _ from still y yp yx out live]
  · simp [NodeTree.map, mapAll, slots]
  · rw [List.mem_cons, not_or] at mem
    have same := o.frame y mem.1 mem.2 there
    rw [← same]
    exact still y yp mem.1 (fun deep => mem.2 (o.inside y deep)) (same ▸ there)
  · have same : y = c := by simpa using mem
    exact o.old_or_fresh (same ▸ fresh)
  · have yc : y ≠ c := by simpa using mem
    rw [rekeyed.aligned.slotOf_add_of_ne _ yc]
    by_cases yx : y = x
    · rw [yx, Hosts.slotOf_eq_nil rekeyed.old, o.bare x (.inl rfl)]
    · rw [← o.others y yx, Hosts.slotOf, rekeyed.others y yx yc]
      rfl

/-- What is below the element stays there when a host takes its place. -/
theorem Opened.stands_exchanged (o : Opened w w₁ p x g name own slot kids below) {c : NodeId}
    {d : Document} (fresh : w₁.document.view c = none)
    (frame : ∀ y, y ≠ p → y ≠ c → y ≠ x → d.view y = w₁.document.view y) :
    d.view.StandAll (some x) kids := by
  refine standAll_congr (some x) kids (fun y mem => ?_) o.stands
  have live : w₁.document.view y ≠ none := by
    obtain ⟨t, listed, q, u, inside, rfl⟩ := exists_withinAll (some x) kids y mem
    exact (standAll_iff.1 o.stands t listed).live inside.label_mem
  refine frame y (fun same => o.outside (same ▸ o.inside y mem)) (fun same => live (same ▸ fresh))
    fun same => ?_
  exact o.sound.document.forest.not_mem_labelsAll o.stands (same ▸ mem)

/-- When a host has taken the place of a marked element and its slot, what is left of extracting
the element is to compile it and to refer to the template. -/
theorem extract_ok (s : Settings) {identity : String} (visit : NodeId → Compile Unit)
    (o : Opened w w₁ p x g name own slot kids below) (marked : blockOf? own = some identity) :
    ∃ c d hosts steps, w₁.document.view c = none ∧ Rekeyed w₁.hosts hosts x c ∧ d.Sound ∧
      d.view p = some (g.fill [c]) ∧
      d.view c = some {
        data := .element (Text.lower name) (own.filter fun entry => entry.1 != Marker.block)
        parent := some p, children := [] } ∧
      d.view x = some {
        data := .element name (own.filter fun entry => entry.1 == Marker.block)
        parent := none, children := kids.map label } ∧
      (∀ y, y ≠ p → y ≠ c → y ≠ x → d.view y = w₁.document.view y) ∧
      extract s x visit w₁ = (part s x visit >>= fun part => refer c (.template part))
        { document := d, hosts, steps } := by
  obtain ⟨c, d₂, d₃, d, created, moved, parent, replaced, sound, fresh, host, new, old, frame⟩ :=
    exchange_ok o
  have tag : ask (·.tagName x) w₁ = .ok name w₁ := ask_ok (Document.known_tag o.node)
  have value : ask (·.attribute? x Marker.block) w₁ = .ok (some identity) w₁ := by
    refine ask_ok ?_
    rw [Document.known_attribute o.node]
    exact congrArg _ marked
  obtain ⟨steps, reported⟩ := trace_ok s.config
    (fun _ => "add sub-template <" ++ name ++ "> '" ++ (some identity).getD "" ++ "'") w₁
  have first : edit (Document.createElement name) { w₁ with steps } =
      .ok c { w₁ with document := d₂, steps } := edit_ok created
  have second : edit (moveAttributes x c) { w₁ with document := d₂, steps } =
      .ok () { w₁ with document := d₃, steps } := edit_ok moved
  have third : ask (·.parent x) { w₁ with document := d₃, steps } =
      .ok (some p) { w₁ with document := d₃, steps } := ask_ok parent
  have fourth : edit (Document.replace p c x) { w₁ with document := d₃, steps } =
      .ok () { w₁ with document := d, steps } := edit_ok replaced
  have read : (get : Compile Workbench) { w₁ with document := d, steps } =
      .ok { w₁ with document := d, steps } { w₁ with document := d, steps } := rfl
  unfold extract
  rw [bind_ok tag, bind_ok value, bind_ok reported, bind_ok first, bind_ok second, bind_ok third]
  dsimp only
  rw [bind_ok fourth, bind_ok read]
  rcases Rekeyed.of_fresh (x := x) o.sound (by simp [o.node]) fresh with
    ⟨missing, rekeyed⟩ | ⟨id, hosts, found, rekeyed⟩
  · rw [missing]
    have become : discard (hostFor c) { w₁ with document := d, steps } =
        .ok () { w₁ with document := d, hosts := (w₁.hosts.hostFor c).2, steps } := rfl
    exact ⟨c, d, _, steps, fresh, rekeyed, sound, host, new, old, frame, bind_ok become⟩
  · rw [found]
    have become : (modify fun w => { w with hosts } : Compile Unit) { w₁ with document := d, steps } =
        .ok () { w₁ with document := d, hosts, steps } := rfl
    exact ⟨c, d, hosts, steps, fresh, rekeyed, sound, host, new, old, frame, bind_ok become⟩

/-- A marked element gives way to a host for the template made of what is in it. -/
theorem extract_follows (s : Settings) {identity : String} {visit : NodeId → Compile Unit}
    {plan : Except SyntaxError Plan.Sketch} (o : Opened w w₁ p x g name own slot kids below)
    (marked : blockOf? own = some identity)
    (solid : ∀ sketch, plan = .ok sketch → Plan.Solid sketch.trees)
    (inner : ∀ w₂ : Workbench, w₂.Sound →
      w₂.document.view x = some {
        data := .element name [], parent := none, children := kids.map label } →
      w₂.document.view.StandAll (some x) kids → (∀ y, w₂.hosts.slotOf y = []) →
      Follows ((kids.map label).forM visit) plan
        (fun _ => Carried w₂ x (.inside (.element name []) none) (labelsAll kids)) w₂) :
    Follows (extract s x visit)
      (plan >>= fun sketch => pure (Plan.block name own slot identity sketch))
      (fun _ => Carried w p g (x :: below)) w₁ := by
  obtain ⟨c, d, hosts, steps, fresh, rekeyed, sound, host, new, old, frame, begins⟩ :=
    extract_ok s visit o marked
  have stands := o.stands_exchanged fresh frame
  refine .via begins ((part_follows s sound marked old stands solid inner).bind ?_)
  intro part sketch w₂ outcome
  obtain ⟨table, compiled, sound₂, copied, kept⟩ := outcome
  subst compiled
  refine .done (refer_ok ..)
    ⟨_, rekeyed.grown o fresh host new frame sound₂ table kept _, fun part mem => ?_⟩
  rw [List.mem_singleton.1 mem]
  refine copied.mono (fun _ _ _ => rfl) fun y => ?_
  rintro (inside | unused)
  · exact .inl (List.mem_cons_of_mem _ (o.inside y inside))
  · refine o.old_or_fresh ?_
    have yp : y ≠ p := by
      intro same
      rw [same, host] at unused
      cases unused
    have yc : y ≠ c := by
      intro same
      rw [same, new] at unused
      cases unused
    have yx : y ≠ x := by
      intro same
      rw [same, old] at unused
      cases unused
    rw [← frame y yp yc yx, unused]

end Extracting

end Compile

end Stencil
