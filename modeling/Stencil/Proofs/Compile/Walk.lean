import Stencil.Proofs.Compile.Blocks
import Stencil.Proofs.Compile.Texts

/-! # The walk

Compiling the trees below a node leaves in their place the trees of the plan, or is refused
with the error of the plan.
-/

namespace Stencil

open Markup NodeTree View

/-! ## What a plan consists of -/

theorem bind_eq_ok {ε α β : Type} {x : Except ε α} {f : α → Except ε β} {b : β} :
    (x >>= f) = .ok b ↔ ∃ a, x = .ok a ∧ f a = .ok b := by
  cases x with
  | error e => simp [bind, Except.bind]
  | ok a => simp [bind, Except.bind]

namespace Plan

open Compile

variable {s : Settings}

/-- The ways in which an element is planned. -/
theorem ofTree_element {id : NodeId} {name : String} {attributes : List (String × Value)}
    {children : List (NodeTree NodeId)} {sketch : Sketch}
    (h : ofTree s (.node id (.element name attributes) children) = .ok sketch) :
    ∃ kept slot, ofAttributes s attributes = .ok (kept, slot) ∧
      ((∃ identity below, (ofTrees s children = .ok below ∨ ofPromoted s children = .ok below) ∧
          sketch = block name kept slot identity below) ∨
        ∃ own below, ofContent s children (ofTrees s children) = .ok (own, below) ∧
          sketch = ⟨[.node (slot ++ own) (.element name kept) below.trees], below.parts⟩) := by
  simp only [ofTree] at h
  obtain ⟨⟨kept, slot⟩, known, h⟩ := bind_eq_ok.1 h
  refine ⟨kept, slot, known, ?_⟩
  cases marked : blockOf? attributes with
  | some identity =>
      rw [marked] at h
      obtain ⟨below, planned, h⟩ := bind_eq_ok.1 h
      cases h
      exact .inl ⟨identity, below, .inl planned, rfl⟩
  | none =>
      cases sole : soleBlock? children with
      | some found =>
          rw [marked, sole] at h
          obtain ⟨below, planned, h⟩ := bind_eq_ok.1 h
          cases h
          exact .inl ⟨found.2, below, .inr planned, rfl⟩
      | none =>
          rw [marked, sole] at h
          obtain ⟨⟨own, below⟩, planned, h⟩ := bind_eq_ok.1 h
          cases h
          exact .inr ⟨own, below, planned, rfl⟩

/-- An element holds a single directive, of which nothing is left, or what its children
become. -/
theorem ofContent_cases {children : List (NodeTree NodeId)} {below : Except SyntaxError Sketch}
    {own : Slot} {inside : Sketch} (h : ofContent s children below = .ok (own, inside)) :
    (∃ b, own = [.binding b] ∧ inside = ⟨[], []⟩) ∨ own = [] ∧ below = .ok inside := by
  unfold ofContent at h
  obtain ⟨sole, -, h⟩ := bind_eq_ok.1 h
  cases sole with
  | none =>
      obtain ⟨sketch, planned, h⟩ := bind_eq_ok.1 h
      cases h
      exact .inr ⟨rfl, planned⟩
  | some found =>
      obtain ⟨b, -, h⟩ := bind_eq_ok.1 h
      cases h
      exact .inl ⟨b, rfl, rfl⟩

/-! ## Hosts are elements -/

theorem hostsAll_append (ts us : List (NodeTree Slot)) :
    hostsAll (ts ++ us) = hostsAll ts ++ hostsAll us := by
  induction ts with
  | nil => rfl
  | cons t ts ih => simp [hostsAll, ih]

theorem solid_nil : Solid [] := nofun

theorem Solid.append {ts us : List (NodeTree Slot)} (h : Solid ts) (k : Solid us) :
    Solid (ts ++ us) := by
  intro t mem
  rw [hostsAll_append, List.mem_append] at mem
  exact mem.elim (h t) (k t)

theorem Solid.element {ts : List (NodeTree Slot)} (h : Solid ts) (slot : Slot) (name : String)
    (attributes : List (String × Value)) : Solid [.node slot (.element name attributes) ts] := by
  intro t mem
  simp only [hostsAll, hosts, List.append_nil, List.mem_append] at mem
  rcases mem with own | below
  · by_cases none_there : slot.isEmpty
    · simp [none_there] at own
    · simp only [none_there] at own
      rw [List.mem_singleton.1 own]
      rfl
  · exact h t below

theorem Solid.bare (data : NodeData) : Solid [.node [] data []] := by
  intro t mem
  cases mem

theorem solid_literal (value : String) : Solid (literal value) := by
  unfold literal
  split
  · exact solid_nil
  · exact .bare _

theorem solid_ofOccurrences {source : Source} (found : List Occurrence) :
    ∀ {trees}, ofOccurrences s source found = .ok trees → Solid trees := by
  induction found with
  | nil =>
      intro trees h
      cases h
      exact solid_nil
  | cons o found ih =>
      intro trees h
      rw [ofOccurrences] at h
      obtain ⟨own, planned, h⟩ := bind_eq_ok.1 h
      obtain ⟨others, more, h⟩ := bind_eq_ok.1 h
      cases h
      rw [ofOccurrence] at planned
      obtain ⟨b, -, planned⟩ := bind_eq_ok.1 planned
      cases planned
      exact ((solid_literal _).append (solid_nil.element _ _ _)).append (ih more)

theorem solid_ofText {value : String} {trees : List (NodeTree Slot)}
    (h : ofText s value = .ok trees) : Solid trees := by
  unfold ofText at h
  obtain ⟨found, -, h⟩ := bind_eq_ok.1 h
  by_cases none_found : found.isEmpty
  · rw [if_pos none_found] at h
    cases h
    exact .bare _
  · rw [if_neg none_found] at h
    obtain ⟨pieces, planned, h⟩ := bind_eq_ok.1 h
    cases h
    exact (solid_ofOccurrences found planned).append (solid_literal _)

mutual

theorem solid_ofTree : (t : NodeTree NodeId) → ∀ {sketch}, ofTree s t = .ok sketch →
    Solid sketch.trees
  | .node id data children, sketch, h => by
      cases data with
      | text value =>
          rw [ofTree] at h
          obtain ⟨trees, planned, h⟩ := bind_eq_ok.1 h
          cases h
          exact solid_ofText planned
      | element name attributes =>
          obtain ⟨kept, slot, -, h⟩ := ofTree_element h
          rcases h with ⟨identity, below, -, rfl⟩ | ⟨own, below, planned, rfl⟩
          · exact solid_nil.element _ _ _
          · rcases ofContent_cases planned with ⟨b, -, rfl⟩ | ⟨-, inside⟩
            · exact solid_nil.element _ _ _
            · exact (solid_ofTrees children inside).element _ _ _
      | comment value | fragment | doctype value =>
          cases h
          exact .bare _

theorem solid_ofTrees : (ts : List (NodeTree NodeId)) → ∀ {sketch}, ofTrees s ts = .ok sketch →
    Solid sketch.trees
  | [], sketch, h => by
      cases h
      exact solid_nil
  | t :: ts, sketch, h => by
      rw [ofTrees] at h
      obtain ⟨own, planned, h⟩ := bind_eq_ok.1 h
      obtain ⟨others, more, h⟩ := bind_eq_ok.1 h
      cases h
      exact (solid_ofTree t planned).append (solid_ofTrees ts more)

end

theorem solid_ofPromoted (ts : List (NodeTree NodeId)) {sketch : Sketch}
    (h : ofPromoted s ts = .ok sketch) : Solid sketch.trees := by
  induction ts with
  | nil =>
      cases h
      exact solid_nil
  | cons t ts ih =>
      obtain ⟨id, data, children⟩ := t
      rw [ofPromoted] at h
      split at h
      · exact solid_ofTrees children h
      · exact ih h

/-- What is kept of attributes that are distinct has the same names. -/
theorem block_putField (name : String) (kept : List (String × Value)) (slot : Slot)
    (identity : String) (below : Sketch) (value : Value) :
    block name (Value.putField Marker.block value kept) slot identity below =
      block name kept slot identity below := by
  have same : (Value.putField Marker.block value kept).filter (fun entry => entry.1 != Marker.block) =
      kept.filter fun entry => entry.1 != Marker.block := by
    induction kept with
    | nil => simp [Value.putField]
    | cons entry kept ih =>
        by_cases found : entry.1 = Marker.block
        · simp [Value.putField, found]
        · simp [Value.putField, found, ih]
  simp only [block, same]

end Plan

/-! ## Walking -/

namespace Compile

variable {w : Workbench} {p : NodeId} {g : Gap}

/-- A block that is all that an element holds, and where it stands in the element. -/
theorem soleBlock?_eq_some {ts : List (NodeTree NodeId)} {marker : NodeId} {identity : String}
    (h : soleBlock? ts = some (marker, identity)) :
    ∃ front tag entries below back, ts = front ++ .node marker (.element tag entries) below :: back ∧
      blockOf? entries = some identity ∧
      (∀ t ∈ front ++ back, ∃ value, t.data = .text value ∧ isBlankText value = true) ∧
      ts.find? (fun t => t.data.isElement) = some (.node marker (.element tag entries) below) := by
  induction ts with
  | nil => cases h
  | cons t more ih =>
      obtain ⟨id, data, below⟩ := t
      cases data with
      | text value =>
          rw [soleBlock?] at h
          split at h
          · rename_i blank
            obtain ⟨front, tag, entries, below', back, rfl, marked, blanks, first⟩ := ih h
            exact ⟨_ :: front, tag, entries, below', back, rfl, marked,
              List.forall_mem_cons.2 ⟨⟨value, rfl, blank⟩, blanks⟩, first⟩
          · cases h
      | element name attributes =>
          rw [soleBlock?] at h
          cases marked : blockOf? attributes with
          | none => simp [marked] at h
          | some value =>
              simp only [marked] at h
              split at h
              · rename_i blank
                cases h
                refine ⟨[], name, attributes, below, more, rfl, marked, fun t mem => ?_, rfl⟩
                have own := List.all_eq_true.1 blank t mem
                obtain ⟨id, data, below⟩ := t
                cases data with
                | text value => exact ⟨value, rfl, own⟩
                | _ => cases own
              · cases h
      | comment value | fragment | doctype value => cases h

/-- What becomes of the children of an element into which a marked child is merged. -/
theorem ofPromoted_eq {s : Settings} {ts : List (NodeTree NodeId)} {m : NodeTree NodeId}
    (first : ts.find? (fun t => t.data.isElement) = some m) :
    Plan.ofPromoted s ts = Plan.ofTrees s m.children := by
  induction ts with
  | nil => cases first
  | cons t more ih =>
      obtain ⟨id, data, children⟩ := t
      rw [Plan.ofPromoted]
      by_cases element : data.isElement
      · rw [List.find?_cons_of_pos (by exact element)] at first
        cases first
        rw [if_pos element]
        rfl
      · rw [List.find?_cons_of_neg (by exact element)] at first
        rw [if_neg element, ih first]

/-- No directive is bound in a block marker. -/
theorem blockOf?_ofAttributes {s : Settings} {attributes kept : List (String × Value)} {slot : Slot}
    (h : Plan.ofAttributes s attributes = .ok (kept, slot)) :
    blockOf? kept = blockOf? attributes := by
  induction attributes generalizing kept slot with
  | nil =>
      cases h
      rfl
  | cons entry more ih =>
      obtain ⟨name, value⟩ := entry
      rw [Plan.ofAttributes] at h
      obtain ⟨⟨left, own⟩, first, h⟩ := bind_eq_ok.1 h
      obtain ⟨⟨others, slots⟩, rest, h⟩ := bind_eq_ok.1 h
      cases h
      unfold blockOf? at ih ⊢
      by_cases block : name = Marker.block
      · rw [Plan.ofAttribute, if_pos block] at first
        cases first
        simp [block]
      · have other : (Marker.block == name) = false := by simpa using Ne.symm block
        rw [List.lookup_cons, List.lookup_cons, other]
        exact ih rest

/-- A merged element has the block marker of the child. -/
theorem blockOf?_putField (identity : String) (own : List (String × Value)) :
    blockOf? (Value.putField Marker.block (.string identity) own) = some identity := by
  rw [blockOf?, Document.lookup_putField, if_pos rfl]
  rfl

theorem opened_of_dressed {w₁ : Workbench} {x : NodeId} {name : String}
    {own kept : List (String × Value)} {slot : Slot} {children : List (NodeTree NodeId)}
    (h : w.Sound) (host : w.document.view p = some (g.fill [x]))
    (stands : w.document.view.Stands (some p) (.node x (.element name own) children))
    (bare : ∀ y ∈ x :: labelsAll children, w.hosts.slotOf y = [])
    (dressed : Dressed w w₁ x slot)
    (node : w₁.document.view x = some {
      data := .element name kept, parent := some p, children := children.map label }) :
    Opened w w₁ p x g name kept slot children (labelsAll children) where
  sound := dressed.sound
  host := by
    have apart : p ≠ x := by
      intro same
      subst same
      exact (h.document.forest.rooted stands.1).not_above_parent stands.1 rfl .self
    rw [dressed.frame p apart, host]
  node := node
  stands := standAll_congr (some x) children (fun y mem => dressed.frame y fun same =>
    h.document.forest.not_mem_labelsAll stands.2 (same ▸ mem)) stands.2
  inside _ mem := mem
  outside := fun mem => h.document.forest.not_mem_labelsAll
    (show w.document.view.StandAll (some p) [.node x (.element name own) children] from
      ⟨stands, trivial⟩) (by simp [mem])
  frame y other _ _ := dressed.frame y other
  slot := by rw [dressed.own, bare x (by simp), List.nil_append]
  others := dressed.others
  bare y known := bare y (by simpa using known)

/-- Only elements and fragments have anything below them. -/
theorem childless {q : Option NodeId} {id : NodeId} {data : NodeData}
    {children : List (NodeTree NodeId)} (h : w.Sound)
    (stands : w.document.view.Stands q (.node id data children))
    (leaf : data.isContainer = false) : children = [] := by
  have container := h.document.forest.container stands.1
  cases children with
  | nil => rfl
  | cons c cs =>
      rw [container (by simp)] at leaf
      cases leaf

/-- A node that stays as it is. -/
theorem leaf_carried {id : NodeId} {data : NodeData} (h : w.Sound)
    (host : w.document.view p = some (g.fill [id]))
    (stands : w.document.view.Stands (some p) (.node id data []))
    (bare : w.hosts.slotOf id = []) :
    Carried w p g [id] ⟨[.node [] data []], []⟩ w := by
  have alone : w.document.view.StandAll (some p) [.node id data []] := ⟨stands, trivial⟩
  have kept := Grown.refl h host alone
  have shown : [NodeTree.node id data []].map (NodeTree.map w.hosts.slotOf) =
      [.node [] data []] := by
    simp [NodeTree.map, bare]
  rw [shown] at kept
  exact ⟨_, kept, nofun⟩

/-- Whether an element is marked as a block is read off its attributes. -/
theorem Opened.presence {w w₁ : Workbench} {x : NodeId} {name : String}
    {own : List (String × Value)} {slot : Slot} {kids : List (NodeTree NodeId)} {below : List NodeId}
    (o : Opened w w₁ p x g name own slot kids below) :
    ask (·.hasAttribute x Marker.block) w₁ = .ok (blockOf? own).isSome w₁ := by
  refine ask_ok ?_
  rw [Document.known_presence o.node, blockOf?, Option.isSome_map]

/-- What is inside an element is followed by what holds of the element. -/
theorem Opened.carried {w w₁ w₂ w₃ : Workbench} {x : NodeId} {name : String}
    {own : List (String × Value)} {slot more : Slot} {kids : List (NodeTree NodeId)}
    {sketch : Plan.Sketch} (o : Opened w w₁ p x g name own slot kids (labelsAll kids))
    (dressed : Dressed w₁ w₂ x more) (document : w₂.document = w₁.document)
    (inner : Carried w₂ x (.inside (.element name own) (some p)) (labelsAll kids) sketch w₃) :
    Carried w p g (x :: labelsAll kids)
      ⟨[.node (slot ++ more) (.element name own) sketch.trees], sketch.parts⟩ w₃ := by
  have opened : Opened w w₂ p x g name own (slot ++ more) kids (labelsAll kids) := {
    sound := dressed.sound
    host := document ▸ o.host
    node := document ▸ o.node
    stands := document ▸ o.stands
    inside := o.inside
    outside := o.outside
    frame := document ▸ o.frame
    slot := by rw [dressed.own, o.slot]
    others := fun y other => by rw [dressed.others y other, o.others y other]
    bare := o.bare }
  obtain ⟨us, grown, copies⟩ := inner
  refine ⟨_, opened.element grown, fun part mem => (copies part mem).mono (fun _ _ _ => rfl) ?_⟩
  rintro y (inside | fresh)
  · exact .inl (List.mem_cons_of_mem x inside)
  · exact opened.old_or_fresh fresh

section Content

variable {x : NodeId} {name : String} {own : List (String × Value)} {q : Option NodeId}
  {kids : List (NodeTree NodeId)}

/-- Without its children an element is a leaf. -/
theorem discard_grown (h : w.Sound)
    (node : w.document.view x = some {
      data := .element name own, parent := q, children := kids.map label })
    (stands : w.document.view.StandAll (some x) kids)
    (bare : ∀ y ∈ labelsAll kids, w.hosts.slotOf y = []) :
    ∃ d, Document.discardChildren x w.document = .ok () d ∧
      Grown w { w with document := d } x (.inside (.element name own) q) (labelsAll kids) [] [] := by
  obtain ⟨d, run, sound, node', frame⟩ := Document.discardChildren_ok h.document node stands
  have still : Workbench.Sound { w with document := d } := by
    refine h.edited sound fun y there live => ?_
    by_cases yx : y = x
    · simp [yx, node']
    · -- a node below the element is no host
      rwa [frame y yx fun mem => there (bare y mem)]
  exact ⟨d, run, still, node', trivial, rfl, fun y yx mem _ => frame y yx mem, nofun,
    fun _ _ => rfl⟩

/-- What an element holds is read off the document. -/
theorem soleDirective_follows (s : Settings)
    (node : w.document.view x = some {
      data := .element name own, parent := q, children := kids.map label })
    (stands : w.document.view.StandAll (some x) kids) :
    Follows (soleDirective s x) (soleDirective? s kids) (fun a b w' => a = b ∧ w = w') w := by
  refine .step (ask_ok (Document.children_eq_ok node)) ?_
  match kids, stands with
  | [], _ => exact ⟨none, w, rfl, rfl, rfl⟩
  | .node _ data _ :: _ :: _, _ => cases data <;> exact ⟨none, w, rfl, rfl, rfl⟩
  | [.node id data below], stands =>
      have asked : ask (·.data id) w = .ok data w := ask_ok (Document.data_eq_ok stands.1.1)
      refine .step asked ?_
      cases data with
      | text value =>
          refine (Follows.lift (Occurrence.whole? (s.source value)) w).bind ?_
          rintro found _ w' ⟨rfl, rfl⟩
          exact ⟨_, w, rfl, rfl, rfl⟩
      | _ => exact ⟨none, w, rfl, rfl, rfl⟩

/-- An element that is no block holds one directive, or what its children become. -/
theorem content_follows (s : Settings) {visit : NodeId → Compile Unit} (h : w.Sound)
    (node : w.document.view x = some {
      data := .element name own, parent := q, children := kids.map label })
    (stands : w.document.view.StandAll (some x) kids)
    (bare : ∀ y ∈ labelsAll kids, w.hosts.slotOf y = [])
    (inner : Follows ((kids.map label).forM visit) (Plan.ofTrees s kids)
      (fun _ => Carried w x (.inside (.element name own) q) (labelsAll kids)) w) :
    Follows (content s x visit) (Plan.ofContent s kids (Plan.ofTrees s kids))
      (fun _ outcome w' => ∃ w₁, Dressed w w₁ x outcome.1 ∧ w₁.document = w.document ∧
        Carried w₁ x (.inside (.element name own) q) (labelsAll kids) outcome.2 w') w := by
  refine (soleDirective_follows s node stands).bind ?_
  rintro sole _ _ ⟨rfl, rfl⟩
  cases sole with
  | none =>
      refine .step (ask_ok (Document.children_eq_ok node)) ?_
      exact inner.map fun _ sketch w' outcome => ⟨w, .refl h x, rfl, outcome⟩
  | some found =>
      obtain ⟨source, o⟩ := found
      refine (bindDirective_follows s x source o none w).andThen_pure ?_
      intro _ b w₁ bound
      have dressed : Dressed w w₁ x [.binding b] := .add h _ (by simp [node]) bound.1 bound.2
      have xs : x ∉ labelsAll kids := h.document.forest.not_mem_labelsAll stands
      obtain ⟨d, run, grown⟩ := discard_grown dressed.sound (bound.1 ▸ node) (bound.1 ▸ stands)
        fun y mem => by rw [dressed.others y fun same => xs (same ▸ mem), bare y mem]
      exact ⟨(), _, edit_ok run, w₁, dressed, bound.1, _, grown, nofun⟩

/-- What has been the marked child so far is the only one if only blank texts follow. -/
theorem soleBlockAmong_some (marker : NodeId) (stands : w.document.view.StandAll q kids) :
    soleBlockAmong (some marker) (kids.map label) w =
      .ok (if kids.all soleBlock?.isBlank then some marker else none) w := by
  induction kids with
  | nil => rfl
  | cons t more ih =>
      obtain ⟨id, data, below⟩ := t
      have asked : ask (·.data id) w = .ok data w := ask_ok (Document.data_eq_ok stands.1.1)
      rw [List.map_cons, label, soleBlockAmong, bind_ok asked, List.all_cons]
      cases data with
      | text value =>
          by_cases blank : isBlankText value
          · simpa [blank, soleBlock?.isBlank] using ih stands.2
          · simp [blank, soleBlock?.isBlank, pure_run]
      | element tag entries =>
          have presence : ask (·.hasAttribute id Marker.block) w = .ok _ w :=
            ask_ok (Document.known_presence stands.1.1 Marker.block)
          exact bind_ok presence
      | _ => rfl

/-- The marked child is the one that a reading of the children finds. -/
theorem soleBlockAmong_none (stands : w.document.view.StandAll q kids) :
    soleBlockAmong none (kids.map label) w = .ok ((soleBlock? kids).map Prod.fst) w := by
  induction kids with
  | nil => rfl
  | cons t more ih =>
      obtain ⟨id, data, below⟩ := t
      have asked : ask (·.data id) w = .ok data w := ask_ok (Document.data_eq_ok stands.1.1)
      rw [List.map_cons, label, soleBlockAmong, bind_ok asked]
      cases data with
      | text value =>
          rw [soleBlock?]
          by_cases blank : isBlankText value
          · simpa [blank] using ih stands.2
          · simp [blank, pure_run]
      | element tag entries =>
          have presence : ask (·.hasAttribute id Marker.block) w =
              .ok (entries.lookup Marker.block).isSome w :=
            ask_ok (Document.known_presence stands.1.1 Marker.block)
          refine (bind_ok presence).trans ?_
          rw [soleBlock?, blockOf?]
          cases entries.lookup Marker.block with
          | none => rfl
          | some value =>
              refine (soleBlockAmong_some id stands.2).trans ?_
              by_cases blank : more.all soleBlock?.isBlank
              · simp only [if_pos blank, Option.map_some]
              · simp only [if_neg blank, Option.map_some, Option.map_none]
      | _ => rfl

/-- Nothing is merged into an element of other children. -/
theorem promote_none (s : Settings)
    (node : w.document.view x = some {
      data := .element name own, parent := q, children := kids.map label })
    (stands : w.document.view.StandAll (some x) kids) (sole : soleBlock? kids = none) :
    promote s x w = .ok () w := by
  have none_found := soleBlockAmong_none stands
  rw [sole] at none_found
  unfold promote
  rw [bind_ok (ask_ok (Document.children_eq_ok node)), bind_ok none_found]
  rfl

/-- A marked child that is the only one beside blank texts is merged into its parent. -/
theorem promote_some (s : Settings) {marker : NodeId} {identity : String}
    (node : w.document.view x = some {
      data := .element name own, parent := q, children := kids.map label })
    (stands : w.document.view.StandAll (some x) kids)
    (sole : soleBlock? kids = some (marker, identity)) :
    promote s x w = merge s x marker identity w := by
  have found := soleBlockAmong_none stands
  rw [sole, Option.map_some] at found
  obtain ⟨front, tag, entries, below, back, split, marked, -⟩ := soleBlock?_eq_some sole
  have listed : .node marker (.element tag entries) below ∈ kids := by simp [split]
  have top := (standAll_iff.1 stands _ listed).top
  have value : ask (·.attribute? marker Marker.block) w = .ok (some identity) w := by
    refine ask_ok ((Document.known_attribute top Marker.block).trans ?_)
    exact congrArg _ marked
  unfold promote
  rw [bind_ok (ask_ok (Document.children_eq_ok node)), bind_ok found]
  refine (bind_ok value).trans ?_
  rw [Option.getD_some]

end Content

/-- A tree below `p` has no number in common with the trees behind it, and these are in use. -/
structure Beside (w : Workbench) (p : NodeId) (t : NodeTree NodeId) (ts : List (NodeTree NodeId)) :
    Prop where
  apart : ∀ x ∈ t.labels, x ∉ labelsAll ts
  outside : p ∉ t.labels
  below : p ∉ labelsAll ts
  live : ∀ x ∈ labelsAll ts, w.document.view x ≠ none

namespace Beside

variable {t : NodeTree NodeId} {ts : List (NodeTree NodeId)}

theorem of_stands (h : w.Sound) (host : w.document.view p = some (g.fill ((t :: ts).map label)))
    (stands : w.document.view.StandAll (some p) (t :: ts)) : Beside w p t ts := by
  have nodup := h.document.forest.nodup_labelsAll (t :: ts) p stands
    (((List.sublist_append_right _ _).trans (List.sublist_append_left _ _)).nodup
      (h.document.forest.children_nodup host))
  have outside := h.document.forest.not_mem_labelsAll stands
  rw [labelsAll_cons, List.nodup_append] at nodup
  rw [labelsAll_cons, List.mem_append, not_or] at outside
  refine ⟨fun x mem later => nodup.2.2 x mem x later rfl, outside.1, outside.2, fun x mem => ?_⟩
  obtain ⟨u, listed, q, v, inside, rfl⟩ := exists_withinAll (some p) ts x mem
  exact (standAll_iff.1 stands.2 u listed).live inside.label_mem

/-- When the first tree has given way, the others still stand, and they hold no hosts. -/
theorem later (b : Beside w p t ts) {w₁ : Workbench} {us : List (NodeTree NodeId)}
    {trees : List (NodeTree Slot)} (first : Grown w w₁ p (g.left (ts.map label)) t.labels us trees)
    (stands : w.document.view.StandAll (some p) (t :: ts))
    (bare : ∀ x ∈ labelsAll (t :: ts), w.hosts.slotOf x = []) :
    w₁.document.view.StandAll (some p) ts ∧ ∀ x ∈ labelsAll ts, w₁.hosts.slotOf x = [] := by
  refine ⟨standAll_congr _ ts (fun x mem => ?_) stands.2, fun x mem => ?_⟩
  · exact first.frame x (fun same => b.below (same ▸ mem)) (fun inside => b.apart x inside mem)
      (b.live x mem)
  · rw [first.others x fun inside => ?_, bare x (List.mem_append_right _ mem)]
    rcases first.fresh x inside with known | fresh
    · exact b.apart x known mem
    · exact b.live x mem fresh

end Beside

/-- `visit` does with a tree of at most `fuel` levels what its plan says. -/
def Visits (s : Settings) (visit : NodeId → Compile Unit) (fuel : Nat) : Prop :=
  ∀ t : NodeTree NodeId, t.height ≤ fuel → ∀ {w p g}, w.Sound →
    w.document.view p = some (g.fill [t.label]) → w.document.view.Stands (some p) t →
    (∀ x ∈ t.labels, w.hosts.slotOf x = []) →
    Follows (visit t.label) (Plan.ofTree s t) (fun _ => Carried w p g t.labels) w

namespace Visits

variable {s : Settings} {visit : NodeId → Compile Unit} {fuel : Nat} {ts : List (NodeTree NodeId)}

/-- What is done with trees side by side is done with one after the other. -/
theorem all (visits : Visits s visit fuel) (short : heightAll ts ≤ fuel) (h : w.Sound)
    (host : w.document.view p = some (g.fill (ts.map label)))
    (stands : w.document.view.StandAll (some p) ts)
    (bare : ∀ x ∈ labelsAll ts, w.hosts.slotOf x = []) :
    Follows ((ts.map label).forM visit) (Plan.ofTrees s ts)
      (fun _ => Carried w p g (labelsAll ts)) w := by
  induction ts generalizing w g with
  | nil => exact .pure ⟨[], .empty h host, nofun⟩
  | cons t ts ih =>
      have beside := Beside.of_stands h host stands
      have levels := Nat.max_le.1 short
      rw [List.map_cons, List.forM, Plan.ofTrees]
      refine (visits t levels.1 (g := g.left (ts.map label)) h
        (by rw [host, Gap.fill_left]; rfl) stands.1
        fun x mem => bare x (List.mem_append_left _ mem)).bind ?_
      intro _ sketch w₁ outcome
      obtain ⟨us, first, copies⟩ := outcome
      obtain ⟨others, bare₁⟩ := beside.later first stands bare
      refine (ih levels.2 first.sound first.host_right others bare₁).map ?_
      intro _ more w' outcome
      obtain ⟨vs, second, later⟩ := outcome
      refine ⟨us ++ vs, first.append second beside.apart beside.live, fun part mem => ?_⟩
      rcases List.mem_append.1 mem with mem | mem
      · refine (copies part mem).mono (fun x free there => ?_) fun x => .imp_left fun known =>
          List.mem_append_left _ known
        -- neither `p` nor a node of the later trees is on a number that the copies may have
        refine second.frame x (fun same => ?_) (fun known => ?_) there
        · subst same
          exact free.elim beside.outside (by simp [host])
        · exact free.elim (fun inside => beside.apart x inside known) (beside.live x known)
      · refine (later part mem).mono (fun _ _ _ => rfl) fun x free => ?_
        rcases free with known | fresh
        · exact .inl (List.mem_append_right _ known)
        · exact (first.old_or_fresh fresh).imp_left (List.mem_append_left _)

/-- All children of a node are visited. -/
theorem children (visits : Visits s visit fuel) (short : heightAll ts ≤ fuel) (h : w.Sound)
    {data : NodeData} {q : Option NodeId}
    (node : w.document.view p = some { data, parent := q, children := ts.map label })
    (stands : w.document.view.StandAll (some p) ts)
    (bare : ∀ x ∈ labelsAll ts, w.hosts.slotOf x = []) :
    Follows ((ts.map label).forM visit) (Plan.ofTrees s ts)
      (fun _ => Carried w p (.inside data q) (labelsAll ts)) w :=
  visits.all short h (by rwa [Gap.fill_inside]) stands bare

end Visits

section Elements

variable {w₁ : Workbench} {x : NodeId} {name : String} {own : List (String × Value)} {slot : Slot}
  {kids : List (NodeTree NodeId)}

/-- The ways in which an element is handled whose attributes have been bound: it is extracted as
it is, or after a child has been merged into it, or its content is compiled. -/
inductive Handled (s : Settings) (visit : NodeId → Compile Unit) (handle : Compile Unit)
    (w w₁ : Workbench) (p x : NodeId) (g : Gap) (name : String) (own : List (String × Value))
    (slot : Slot) (kids : List (NodeTree NodeId)) : Prop where
  | block {identity : String} (marked : blockOf? own = some identity)
      (run : handle w₁ = extract s x visit w₁)
  | merged {m : NodeTree NodeId} {identity : String} {w₂ : Workbench}
      (unmarked : blockOf? own = none) (sole : soleBlock? kids = some (m.label, identity))
      (first : kids.find? (fun t => t.data.isElement) = some m)
      (opened : Opened w w₂ p x g name (Value.putField Marker.block (.string identity) own) slot
        m.children (labelsAll kids))
      (run : handle w₁ = extract s x visit w₂)
  | plain (unmarked : blockOf? own = none) (sole : soleBlock? kids = none)
      (run : handle w₁ = content s x visit w₁)

/-- Which way it is depends on the marker of the element and on the one of its only child. -/
theorem Opened.handled (o : Opened w w₁ p x g name own slot kids (labelsAll kids)) (s : Settings)
    (visit : NodeId → Compile Unit) :
    Handled s visit
      (do
        unless ← ask (·.hasAttribute x Marker.block) do
          promote s x
        if ← ask (·.hasAttribute x Marker.block) then
          extract s x visit
        else
          content s x visit)
      w w₁ p x g name own slot kids := by
  cases marked : blockOf? own with
  | some identity =>
      have presence := o.presence
      rw [marked] at presence
      exact .block marked ((bind_ok presence).trans (bind_ok presence))
  | none =>
      have presence := o.presence
      rw [marked] at presence
      cases sole : soleBlock? kids with
      | some found =>
          obtain ⟨marker, identity⟩ := found
          obtain ⟨front, tag, entries, below, back, -, -, -, first⟩ := soleBlock?_eq_some sole
          obtain ⟨w₂, run, opened⟩ := o.merge s identity (List.mem_of_find?_eq_some first)
          have promoted := (promote_some s o.node o.stands sole).trans run
          have later := opened.presence
          rw [blockOf?_putField] at later
          exact .merged (m := .node marker (.element tag entries) below) marked sole first opened
            ((bind_ok presence).trans ((bind_ok promoted).trans (bind_ok later)))
      | none =>
          have promoted := promote_none s o.node o.stands sole
          exact .plain marked sole
            ((bind_ok presence).trans ((bind_ok promoted).trans (bind_ok presence)))

/-- An element that has been opened holds no hosts. -/
theorem Opened.bare_kids (o : Opened w w₁ p x g name own slot kids (labelsAll kids)) :
    ∀ y ∈ labelsAll kids, w₁.hosts.slotOf y = [] := by
  intro y mem
  have other : y ≠ x := fun same =>
    o.sound.document.forest.not_mem_labelsAll o.stands (same ▸ mem)
  rw [o.others y other, o.bare y (.inr mem)]

end Elements

/-- Visiting a tree of no more levels than `fuel` leaves what its plan says. -/
theorem visit_follows (s : Settings) (fuel : Nat) : Visits s (visit s fuel) fuel := by
  induction fuel with
  | zero =>
      intro t short
      cases t
      simp [height] at short
  | succ fuel ih =>
      intro t short w p g h host stands bare
      obtain ⟨id, data, children⟩ := t
      have levels : heightAll children ≤ fuel := Nat.le_of_succ_le_succ short
      have asked : ask (·.data id) w = .ok data w := ask_ok (Document.data_eq_ok stands.1)
      rw [label, visit]
      refine .step asked ?_
      cases data with
      | text value =>
          obtain rfl := childless h stands rfl
          rw [Plan.ofTree]
          refine (splitText_follows s h host stands.1 (bare id (by simp))).map ?_
          intro _ trees w' outcome
          obtain ⟨us, grown⟩ := outcome
          exact ⟨us, grown, nofun⟩
      | element name attributes =>
          rw [Plan.ofTree]
          unfold enter
          simp only [bind_assoc]
          refine .trace fun steps => ?_
          refine (bindAttributes_follows s (h.traced steps) stands.1).planned.bind ?_
          rintro _ ⟨kept, slot⟩ w₁ ⟨planned, dressed, node₁⟩
          have opened := opened_of_dressed (x := id) h host stands bare dressed.untraced node₁
          rw [← blockOf?_ofAttributes planned]
          cases opened.handled s (visit s fuel) with
          | block marked run =>
              rw [marked]
              refine .via run (extract_follows s opened marked
                (fun _ => Plan.solid_ofTrees children) ?_)
              intro w₂ sound node₂ stands₂ bare₂
              exact ih.children levels sound node₂ stands₂ fun x _ => bare₂ x
          | @merged m identity w₂ unmarked sole first after run =>
              rw [unmarked, sole]
              simp only [← Plan.block_putField name kept slot identity _ (.string identity)]
              refine .via run (extract_follows s after (blockOf?_putField ..)
                (fun _ => Plan.solid_ofPromoted children) ?_)
              intro w₃ sound node₃ stands₃ bare₃
              rw [ofPromoted_eq first]
              have low := heightAll_children_le (List.mem_of_find?_eq_some first)
              exact ih.children (Nat.le_trans low levels) sound node₃ stands₃ fun x _ => bare₃ x
          | plain unmarked sole run =>
              rw [unmarked, sole]
              refine .via run ((content_follows s opened.sound opened.node opened.stands
                opened.bare_kids (ih.children levels opened.sound opened.node opened.stands
                  opened.bare_kids)).map ?_)
              rintro _ ⟨more, sketch⟩ w' ⟨w₂, dressed, document, inner⟩
              exact opened.carried dressed document inner
      | comment value | doctype value =>
          obtain rfl := childless h stands rfl
          exact .pure (leaf_carried h host stands (bare id (by simp)))
      | fragment =>
          cases h.document.forest.fragment_parent stands.1 rfl

end Compile

end Stencil
