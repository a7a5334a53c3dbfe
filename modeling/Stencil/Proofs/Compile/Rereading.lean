import Stencil.Proofs.Compile.Alike
import Stencil.Proofs.Compile.Sturdy
import Stencil.Proofs.Compile.Upkeep
import Stencil.Proofs.Render.Refinement

/-! # Reading templates again

The plan of a printable and sturdy tree is read back from its markup as it was written, and so are the
plans of all blocks in it. Such a template can be used wherever it is: it is bound and rendered as its
expansion.
-/

namespace Stencil

open Markup NodeTree Compile

/-! ## Plans -/

namespace Plan

variable {s : Settings} {name : String} {attributes kept : List (String × Value)} {slot : Slot}
  {children : List (NodeTree NodeId)}

/-- The markup of a plan is read as its marked tree, the bindings in it are of known kinds, and its parts,
which say what they repeat, are so as well. -/
inductive Reread : Plan → Prop where
  | intro {d : Plan} (root : d.tree.data.isElement = true)
      (read : parse d.compiled.markup = ([mark d.tree], []))
      (builtIn : BuiltIn [d.tree])
      (repeats : ∀ part ∈ d.parts, (Iteration.parse? (part.expression.getD "")).isSome = true)
      (parts : ∀ part ∈ d.parts, Reread part) : Reread d

/-- Trees of a plan that can be printed and read again, with parts of which this is true. -/
structure Sketch.Renewed (sketch : Sketch) : Prop where
  printable : PrintableAll (markAll sketch.trees)
  unmarked : EachAll NodeTree.Unmarked (markAll sketch.trees)
  builtIn : BuiltIn sketch.trees
  repeats : ∀ part ∈ sketch.parts, (Iteration.parse? (part.expression.getD "")).isSome = true
  parts : ∀ part ∈ sketch.parts, part.Reread

/-- A plan with a printable tree is read again. -/
theorem reread_of_renewed {d : Plan} (root : d.tree.data.isElement = true)
    (h : Sketch.Renewed ⟨[d.tree], d.parts⟩) : d.Reread := by
  refine .intro root ?_ h.builtIn h.repeats h.parts
  have read := parse_abbreviate (.singleton _) h.printable h.unmarked
  rw [map_shape_eq_self] at read
  have markup : d.compiled.markup = abbreviate (printAll false [mark d.tree]) := by
    rw [compiled, emit, CompiledTemplate.markup, Skeleton.markup_compact, printAll, printAll,
      String.append_empty]
  rw [markup]
  exact read

namespace Sketch

theorem renewed_nil : Renewed ⟨[], []⟩ where
  printable := trivial
  unmarked := trivial
  builtIn _ mem := (List.not_mem_nil mem).elim
  repeats _ mem := (List.not_mem_nil mem).elim
  parts _ mem := (List.not_mem_nil mem).elim

theorem builtIn_append {ts us : List (NodeTree Slot)} (h : BuiltIn ts) (k : BuiltIn us) :
    BuiltIn (ts ++ us) := by
  intro slot mem
  rw [hostsAll_append, List.map_append] at mem
  exact (List.mem_append.1 mem).elim (h slot) (k slot)

theorem Renewed.append {a b : Sketch} (h : a.Renewed) (k : b.Renewed) :
    Renewed ⟨a.trees ++ b.trees, a.parts ++ b.parts⟩ where
  printable := by
    rw [Static.markAll_append]
    exact printableAll_append h.printable k.printable
  unmarked := by
    rw [Static.markAll_append]
    exact eachAll_append h.unmarked k.unmarked
  builtIn := builtIn_append h.builtIn k.builtIn
  repeats part mem := (List.mem_append.1 mem).elim (h.repeats part) (k.repeats part)
  parts part mem := (List.mem_append.1 mem).elim (h.parts part) (k.parts part)

/-- An element around trees, whatever its attributes are. -/
theorem Renewed.element {below : Sketch} (h : below.Renewed) (e : EntriesPrintable kept)
    (own : ∀ entries, EntriesPrintable entries → ElementPrintable name entries (markAll below.trees))
    (kinds : ∀ b, .binding b ∈ slot → b.kind.isBuiltIn = true) :
    Renewed ⟨[.node slot (.element name kept) below.trees], below.parts⟩ where
  printable := by
    rw [markAll, mark]
    split
    · exact ⟨⟨own kept e, h.printable⟩, trivial⟩
    · exact ⟨⟨own _ e.mark, h.printable⟩, trivial⟩
  unmarked := by
    rw [markAll, mark]
    split <;> exact ⟨⟨trivial, h.unmarked⟩, trivial⟩
  builtIn := by
    intro slot' mem
    rw [hostsAll, hosts, hostsAll, List.append_nil, List.map_append] at mem
    rcases List.mem_append.1 mem with mem | mem
    · split at mem
      · cases mem
      · rw [List.mem_singleton.1 mem]
        exact kinds
    · exact h.builtIn slot' mem
  repeats := h.repeats
  parts := h.parts

/-- A node that is no element, and has nothing below it. -/
theorem renewed_leaf {data : NodeData} (printable : (node () data []).Printable)
    (unmarked : NodeTree.Unmarked data) : Renewed ⟨[.node [] data []], []⟩ where
  printable := ⟨printable, trivial⟩
  unmarked := ⟨⟨unmarked, trivial⟩, trivial⟩
  builtIn := by
    intro slot mem
    simp [hostsAll, hosts] at mem
  repeats := nofun
  parts := nofun

/-- A block gives way to a host without content, and what was in it becomes a part. -/
theorem Renewed.block {below : Sketch} (h : below.Renewed) (plain : PlainName name.toList)
    (e : EntriesPrintable kept) (kinds : ∀ b, .binding b ∈ slot → b.kind.isBuiltIn = true)
    (inside : ElementPrintable name [] (markAll below.trees)) {identity : String}
    (repeats : (Iteration.parse? identity).isSome = true) :
    (Plan.block name kept slot identity below).Renewed := by
  have known : ∀ b, .binding b ∈ slot ++ [.template (part name identity below).compiled] →
      b.kind.isBuiltIn = true := by
    intro b mem
    rcases List.mem_append.1 mem with mem | mem
    · exact kinds b mem
    · cases List.mem_singleton.1 mem
  have host : Renewed ⟨[.node _ (.element name _) []], []⟩ :=
    renewed_nil.element (e.filter fun entry => entry.1 != Marker.block)
      (fun entries e => .childless plain e.distinct e.plains e.strings) known
  have own : Renewed ⟨[.node [] (.element name []) below.trees], below.parts⟩ := {
    printable := ⟨⟨inside, h.printable⟩, trivial⟩
    unmarked := ⟨⟨trivial, h.unmarked⟩, trivial⟩
    builtIn := by
      intro slot' mem
      rw [hostsAll, hosts, hostsAll, List.append_nil, List.isEmpty_nil, if_pos rfl,
        List.nil_append] at mem
      exact h.builtIn slot' mem
    repeats := h.repeats
    parts := h.parts }
  rw [Plan.block, plain.lower]
  exact {
    printable := host.printable
    unmarked := host.unmarked
    builtIn := host.builtIn
    repeats := List.forall_mem_singleton.2 repeats
    parts := List.forall_mem_singleton.2 (reread_of_renewed rfl own) }

end Sketch

/-- What has become of nodes side by side that can be printed and are sturdy. -/
structure Regrown (config : Config) (ts : List (NodeTree NodeId)) (sketch : Sketch) : Prop where
  renewed : sketch.Renewed
  like : Resembles (Text.lower config.wrapperTag) ts (markAll sketch.trees)

theorem builtIn_ofOccurrences {source : Source} {found : List Occurrence}
    {trees : List (NodeTree Slot)} (h : ofOccurrences s source found = .ok trees) : BuiltIn trees := by
  have literals : ∀ value, BuiltIn (literal value) := by
    intro value slot mem
    unfold literal at mem
    split at mem <;> simp [hostsAll, hosts] at mem
  induction found generalizing trees with
  | nil =>
      cases h
      exact nofun
  | cons o found ih =>
      rw [ofOccurrences] at h
      obtain ⟨own, planned, h⟩ := bind_eq_ok.1 h
      obtain ⟨others, more, h⟩ := bind_eq_ok.1 h
      cases h
      obtain ⟨b, bound, planned⟩ := bind_eq_ok.1 planned
      cases planned
      refine Sketch.builtIn_append (Sketch.builtIn_append (literals _) fun slot mem b' listed => ?_)
        (ih more)
      obtain rfl := List.mem_singleton.1 mem
      cases List.mem_singleton.1 listed
      exact isBuiltIn_binding bound

theorem builtIn_ofText {value : String} {trees : List (NodeTree Slot)}
    (h : ofText s value = .ok trees) : BuiltIn trees := by
  unfold ofText at h
  obtain ⟨found, -, h⟩ := bind_eq_ok.1 h
  split at h
  · cases h
    intro slot mem
    simp [hostsAll, hosts] at mem
  · obtain ⟨pieces, planned, h⟩ := bind_eq_ok.1 h
    cases h
    refine Sketch.builtIn_append (builtIn_ofOccurrences planned) fun slot mem => ?_
    unfold literal at mem
    split at mem <;> simp [hostsAll, hosts] at mem

theorem regrown_ofText (neutral : s.config.Neutral) (label : NodeId) {value : String}
    (filled : value ≠ "") (unmarked : ¬valuedMarker <:+: value.toList) {trees : List (NodeTree Slot)}
    (h : ofText s value = .ok trees) :
    Regrown s.config [.node label (.text value) []] ⟨trees, []⟩ where
  renewed := {
    printable := Static.markAll_ofText h ▸ Static.printable_ofText neutral filled
    unmarked := Static.markAll_ofText h ▸ Static.unmarked_ofText unmarked
    builtIn := builtIn_ofText h
    repeats := fun _ mem => (List.not_mem_nil mem).elim
    parts := fun _ mem => (List.not_mem_nil mem).elim }
  like := Static.markAll_ofText h ▸ Static.resembles_ofText label s.config value

/-- A text without directives is all that becomes of it. -/
theorem markAll_ofTrees_text {label : NodeId} {value : String} {below : Sketch}
    (plain : Static.holds value = false)
    (h : ofTrees s [.node label (.text value) []] = .ok below) :
    markAll below.trees = [.node () (.text value) []] := by
  simp only [ofTrees, ofTree] at h
  obtain ⟨own, planned, h⟩ := bind_eq_ok.1 h
  obtain ⟨trees, split, planned⟩ := bind_eq_ok.1 planned
  cases planned
  cases h
  rw [Static.markAll_append, Static.markAll_ofText split, Static.ofText, plain]
  rfl

/-- The content of an element is read back in it, unless it is one directive. -/
theorem Regrown.inside {below : Sketch} (h : Regrown s.config children below)
    (neutral : s.config.Neutral) (printable : ElementPrintable name attributes children)
    (sturdy : ElementSturdy name attributes children)
    (planned : ofTrees s children = .ok below)
    (free : blockOf? attributes = none → Static.isSole children = false)
    {entries : List (String × Value)} (e : EntriesPrintable entries) :
    ElementPrintable name entries (markAll below.trees) := by
  refine h.like.elementPrintable printable.plain e printable.enters (neutral.open_ name)
    (fun void => h.like.nothing.2 (printable.void void)) fun model => ?_
  rcases printable.held model with none_there | ⟨label, value, rfl, closing⟩
  · exact .inl (h.like.nothing.2 none_there)
  · rcases sturdy.whole model label value rfl with plain | ⟨unblocked, directive⟩
    · exact .inr ⟨(), value, markAll_ofTrees_text plain planned, closing⟩
    · cases (free unblocked).symm.trans directive

/-- An element that stays, with what it holds. -/
theorem Regrown.content (neutral : s.config.Neutral)
    (printable : ElementPrintable name attributes children)
    (sturdy : ElementSturdy name attributes children) (known : ofAttributes s attributes = .ok (kept, slot))
    {own : Slot} {below : Sketch} (planned : ofContent s children (ofTrees s children) = .ok (own, below))
    (inner : ∀ {sketch}, ofTrees s children = .ok sketch → Regrown s.config children sketch) :
    Sketch.Renewed ⟨[.node (slot ++ own) (.element name kept) below.trees], below.parts⟩ := by
  have e := EntriesPrintable.left printable known
  have kinds := (ofAttributes_left known).2.2
  unfold ofContent at planned
  obtain ⟨sole, there, planned⟩ := bind_eq_ok.1 planned
  have lone := Static.soleDirective?_isSome there
  cases sole with
  | none =>
      obtain ⟨sketch, planned, h⟩ := bind_eq_ok.1 planned
      cases h
      rw [List.append_nil]
      have grown := inner planned
      exact grown.renewed.element e
        (fun _ e => grown.inside neutral printable sturdy planned (fun _ => lone.symm) e) kinds
  | some found =>
      obtain ⟨b, bound, h⟩ := bind_eq_ok.1 planned
      cases h
      refine Sketch.renewed_nil.element e
        (fun _ e => .childless printable.plain e.distinct e.plains e.strings) fun b' mem => ?_
      rcases List.mem_append.1 mem with mem | mem
      · exact kinds b' mem
      · cases List.mem_singleton.1 mem
        exact isBuiltIn_binding bound

/-- The block of an element that holds nothing else gets a content that the element can take. -/
theorem Regrown.promoted {below : Sketch} {t : NodeTree NodeId} (h : Regrown s.config t.children below)
    (neutral : s.config.Neutral) (printable : ElementPrintable name attributes children)
    (enters : Enters name t.children) (element : t.data.isElement = true) (mem : t ∈ children) :
    ElementPrintable name [] (markAll below.trees) := by
  refine h.like.elementPrintable printable.plain .nil enters (neutral.open_ name) (fun void => ?_)
    fun model => ?_
  · rw [printable.void void] at mem
    cases mem
  · rcases printable.held model with rfl | ⟨label, value, rfl, -⟩
    · cases mem
    · rw [List.mem_singleton.1 mem] at element
      cases element

theorem resembles_element {wrapper tag : String} (id : NodeId) (same : tag = name)
    (ts : List (NodeTree Slot)) :
    Resembles wrapper [.node id (.element name attributes) children]
      (markAll [.node slot (.element tag kept) ts]) := by
  have data : (mark (.node slot (.element tag kept) ts)).data =
      if slot.isEmpty then .element tag kept else markData (.element tag kept) := rfl
  subst same
  refine .single ?_ fun tag' entries same => ?_
  · rw [mark]
    split <;> rfl
  · rw [data] at same
    split at same <;> cases same <;> exact ⟨attributes, rfl⟩

/-- A node that is neither an element nor a text. -/
theorem regrown_leaf {data : NodeData} (id : NodeId) (printable : (node () data []).Printable)
    (unmarked : NodeTree.Unmarked data) (element : data.isElement = false)
    (text : (node () data []).isText = false) :
    Regrown s.config [.node id data []] ⟨[.node [] data []], []⟩ where
  renewed := Sketch.renewed_leaf printable unmarked
  like := by
    refine .single text fun tag entries same => ?_
    have own : data = .element tag entries := same
    rw [own] at element
    cases element

mutual

theorem regrown_ofTree (neutral : s.config.Neutral) : (t : NodeTree NodeId) → t.Printable → t.Sturdy →
    ∀ {sketch}, ofTree s t = .ok sketch → Regrown s.config [t] sketch
  | .node id data children, printable, sturdy, sketch, h => by
      cases data with
      | text value =>
          obtain ⟨filled, rfl⟩ : value ≠ "" ∧ children = [] := printable
          rw [ofTree] at h
          obtain ⟨trees, planned, h⟩ := bind_eq_ok.1 h
          cases h
          exact regrown_ofText neutral id filled sturdy planned
      | element name attributes =>
          obtain ⟨own, inside⟩ : ElementPrintable name attributes children ∧ PrintableAll children :=
            printable
          obtain ⟨hard, hardy⟩ : ElementSturdy name attributes children ∧ SturdyAll children := sturdy
          simp only [ofTree] at h
          obtain ⟨⟨kept, slot⟩, known, h⟩ := bind_eq_ok.1 h
          have e := EntriesPrintable.left own known
          have kinds := (ofAttributes_left known).2.2
          cases marked : blockOf? attributes with
          | some identity =>
              rw [marked] at h
              obtain ⟨below, planned, h⟩ := bind_eq_ok.1 h
              cases h
              have grown := regrown_ofTrees neutral children inside own.parted hardy planned
              exact ⟨grown.renewed.block own.plain e kinds
                (grown.inside neutral own hard planned (by rw [marked]; nofun) .nil)
                (hard.repeats identity marked), resembles_element id own.plain.lower []⟩
          | none =>
              cases sole : soleBlock? children with
              | some found =>
                  rw [marked, sole] at h
                  obtain ⟨below, planned, h⟩ := bind_eq_ok.1 h
                  cases h
                  obtain ⟨front, tag, entries, ts, back, same, asked, blanks, first⟩ := soleBlock?_eq_some sole
                  have there := List.mem_of_find?_eq_some first
                  have grown := regrown_ofPromoted neutral _ inside hardy first planned
                  have enters := hard.promoted marked front found.1 tag entries ts back same blanks
                    (by rw [asked]; nofun)
                  exact ⟨grown.renewed.block own.plain e kinds
                    (grown.promoted neutral own enters rfl there)
                    ((hardy.of_mem there).1.repeats found.2 asked), resembles_element id own.plain.lower []⟩
              | none =>
                  rw [marked, sole] at h
                  obtain ⟨⟨bound, below⟩, planned, h⟩ := bind_eq_ok.1 h
                  cases h
                  exact ⟨Regrown.content neutral own hard known planned
                    (regrown_ofTrees neutral children inside own.parted hardy), resembles_element id rfl _⟩
      | comment value =>
          cases h
          obtain ⟨shut, rfl⟩ : ¬['-', '-', '>'] <:+: value.toList ∧ children = [] := printable
          exact regrown_leaf id ⟨shut, rfl⟩ sturdy rfl rfl
      | doctype value =>
          cases h
          obtain ⟨shut, other, rfl⟩ :
            '>' ∉ value.toList ∧ ¬['-', '-'] <+: value.toList ∧ children = [] := printable
          exact regrown_leaf id ⟨shut, other, rfl⟩ sturdy rfl rfl
      | fragment => exact printable.elim

theorem regrown_ofTrees (neutral : s.config.Neutral) : (ts : List (NodeTree NodeId)) →
    PrintableAll ts → Parted ts → SturdyAll ts → ∀ {sketch}, ofTrees s ts = .ok sketch →
    Regrown s.config ts sketch
  | [], _, _, _, sketch, h => by
      cases h
      exact ⟨Sketch.renewed_nil, .nil⟩
  | t :: ts, printable, parted, sturdy, sketch, h => by
      rw [ofTrees] at h
      obtain ⟨own, planned, h⟩ := bind_eq_ok.1 h
      obtain ⟨others, more, h⟩ := bind_eq_ok.1 h
      cases h
      have first := regrown_ofTree neutral t printable.1 sturdy.1 planned
      have rest := regrown_ofTrees neutral ts printable.2 parted.tail sturdy.2 more
      refine ⟨first.renewed.append rest.renewed, ?_⟩
      rw [Static.markAll_append]
      exact first.like.append rest.like parted

/-- What becomes of the one element among nodes. -/
theorem regrown_ofPromoted (neutral : s.config.Neutral) : (ts : List (NodeTree NodeId)) →
    PrintableAll ts → SturdyAll ts → ∀ {t sketch}, ts.find? (fun t => t.data.isElement) = some t →
    ofPromoted s ts = .ok sketch → Regrown s.config t.children sketch
  | [], _, _, _, _, none_there, _ => by cases none_there
  | .node id data children :: more, printable, sturdy, t, sketch, first, h => by
      rw [ofPromoted] at h
      cases data with
      | element name attributes =>
          cases first
          exact regrown_ofTrees neutral children printable.1.2 printable.1.1.parted sturdy.1.2 h
      | text | comment | fragment | doctype =>
          exact regrown_ofPromoted neutral more printable.2 sturdy.2 first h

end

theorem reread_ofRoot (neutral : s.config.Neutral) (id : NodeId) {d : Plan}
    (printable : Printable (.node id (.element name attributes) children))
    (sturdy : Sturdy (.node id (.element name attributes) children))
    (h : ofRoot s name attributes children = .ok d) : d.Reread := by
  obtain ⟨kept, slot, own, sketch, known, planned, rfl⟩ := ofRoot_eq_ok h
  exact reread_of_renewed rfl (Regrown.content neutral printable.1 sturdy.1 known planned
    (regrown_ofTrees neutral children printable.2 printable.1.parted sturdy.2))

/-! ## Shapes -/

mutual

theorem made_of_mem_hosts : (t : NodeTree Slot) → Made t → ∀ host ∈ hosts t, NodeMade host
  | .node slot data children, h, host, mem => by
      rw [hosts] at mem
      rcases List.mem_append.1 mem with mem | mem
      · split at mem
        · cases mem
        · rw [List.mem_singleton.1 mem]
          exact h.1
      · exact made_of_mem_hostsAll children h.2 host mem

theorem made_of_mem_hostsAll : (ts : List (NodeTree Slot)) → MadeAll ts → ∀ host ∈ hostsAll ts, NodeMade host
  | [], _, _, mem => by cases mem
  | t :: ts, h, host, mem => by
      rw [hostsAll] at mem
      rcases List.mem_append.1 mem with mem | mem
      · exact made_of_mem_hosts t h.1 host mem
      · exact made_of_mem_hostsAll ts h.2 host mem

end

theorem isElement_mark (t : NodeTree Slot) : (mark t).data.isElement = t.data.isElement := by
  obtain ⟨slot, data, children⟩ := t
  rw [mark]
  simp only [NodeTree.data]
  split
  · rfl
  · cases data <;> rfl

theorem slotFits_of_made {ι : Type} {host : NodeTree ι} (made : SlotMade host slot)
    (own : Marker.host ∉ slot.filterMap Reference.attr?)
    (builtIn : ∀ b, .binding b ∈ slot → b.kind.isBuiltIn = true) : SlotFits host slot where
  single := made.single
  empty := made.empty
  distinct := made.distinct
  present bound mem := by
    refine ⟨fun same => own (same ▸ mem), Classical.byContradiction fun out => ?_⟩
    have there := made.emptied bound mem
    rw [Hosts.lookup_eq_none.2 out] at there
    cases there
  builtIn := builtIn

theorem shapedSlots_of_forall {slots : List Slot}
    (h : ∀ slot ∈ slots, ∀ r ∈ slot, CompiledTemplate.ShapedReference r) :
    CompiledTemplate.ShapedSlots slots := by
  have inside : ∀ slot : Slot, (∀ r ∈ slot, CompiledTemplate.ShapedReference r) →
      CompiledTemplate.ShapedSlot slot := by
    intro slot h
    induction slot with
    | nil => trivial
    | cons r rs ih => exact ⟨h r (by simp), ih fun q mem => h q (by simp [mem])⟩
  induction slots with
  | nil => trivial
  | cons slot slots ih =>
      exact ⟨inside slot (h slot (by simp)), ih fun other mem => h other (by simp [mem])⟩

/-- No binding of a host is for the attribute that marks hosts. -/
theorem host_not_bound {t : NodeTree Slot} (made : Made t) :
    ∀ slot ∈ (hosts t).map label, Marker.host ∉ slot.filterMap Reference.attr? := by
  intro slot mem bound
  obtain ⟨host, listed, rfl⟩ := List.mem_map.1 mem
  have own := made_of_mem_hosts t made host listed
  have filled : host.label ≠ [] := by
    intro bare
    rw [bare] at bound
    cases bound
  have there := (own.fits filled).emptied _ bound
  have unmarked := own.unmarked
  rw [hasMarker, there] at unmarked
  cases unmarked

/-- A plan that is complete and is read again has the shape on which rendering relies. -/
theorem Reread.shaped {d : Plan} (h : d.Reread) (complete : d.Complete) : d.compiled.Shaped := by
  induction h with
  | @intro d root read builtIn repeats parts ih =>
      obtain ⟨made, listed, complete⟩ := complete
      refine ⟨⟨mark d.tree, ?_, ?_, ?_⟩, shapedSlots_of_forall fun slot mem r own => ?_⟩
      · rw [CompiledTemplate.treeOf?]
        exact read ▸ List.find?_cons_of_pos ((isElement_mark d.tree).trans root)
      · have unblocked := blockless_mark d.tree made
        generalize mark d.tree = t at unblocked
        obtain ⟨label, data, children⟩ := t
        exact (Bool.and_eq_true_iff.1 unblocked).2
      · refine List.forall₂_iff_get.2 ?_
        obtain ⟨size, fits⟩ := List.forall₂_iff_get.1 (hostTrees_mark d.tree made)
        refine ⟨size, fun i there here => ?_⟩
        have mem := List.get_mem _ ⟨i, here⟩
        refine slotFits_of_made (fits i there here) (host_not_bound made _ mem) (builtIn _ ?_)
        rw [hostsAll, hostsAll, List.append_nil]
        exact mem
      · cases r with
        | binding b => trivial
        | template p =>
            have mem : p ∈ d.compiled.parts :=
              List.mem_filterMap.2 ⟨_, List.mem_flatten.2 ⟨slot, mem, own⟩, rfl⟩
            rw [listed] at mem
            obtain ⟨part, within, rfl⟩ := List.mem_map.1 mem
            exact ⟨Iteration.isSome_parse?_iff.1 (repeats part within), ih part within (complete part within)⟩

end Plan

/-! ## Templates -/

mutual

/-- No element of a printable and sturdy tree is marked as a host. -/
theorem Markup.NodeTree.Sturdy.unmarked {ι : Type} : (t : NodeTree ι) → t.Printable → t.Sturdy →
    t.Each fun data => hasMarker Marker.host data.attributes = false
  | .node _ data children, printable, sturdy => by
      cases data with
      | element name attributes => exact ⟨sturdy.1.unmarked, SturdyAll.unmarked children printable.2 sturdy.2⟩
      | text | comment =>
          obtain ⟨-, rfl⟩ := printable
          exact ⟨rfl, trivial⟩
      | doctype =>
          obtain ⟨-, -, rfl⟩ := printable
          exact ⟨rfl, trivial⟩
      | fragment => exact printable.elim

theorem Markup.NodeTree.SturdyAll.unmarked {ι : Type} : (ts : List (NodeTree ι)) → PrintableAll ts →
    SturdyAll ts → EachAll (fun data => hasMarker Marker.host data.attributes = false) ts
  | [], _, _ => trivial
  | t :: ts, printable, sturdy =>
      ⟨Sturdy.unmarked t printable.1 sturdy.1, SturdyAll.unmarked ts printable.2 sturdy.2⟩

end

namespace Compile

/-- What is compiled from a printable and sturdy tree is read again as it was written: every host is
found in the markup, with the slot that is its own, and so it is in every block. -/
theorem reread_compileNode {config : Config} (neutral : config.Neutral) (title : String) {d : Document}
    {t : NodeTree NodeId} {c : CompiledTemplate} (sound : d.Sound) (read : d.tree t.label = .ok t)
    (element : t.data.isElement = true) (unblocked : blockOf? t.data.attributes = none)
    (printable : t.Printable) (sturdy : t.Sturdy)
    (accepted : ((compileNode config title t.label).run d).1 = .ok c) :
    ∃ plan : Plan, c = plan.compiled ∧ plan.Reread ∧ plan.Complete := by
  obtain ⟨id, data, children⟩ := t
  cases data with
  | element name attributes =>
      rw [run_compileNode config title sound read] at accepted
      cases planned : Plan.ofRoot { config, name := title } name attributes children with
      | error e =>
          rw [planned] at accepted
          cases accepted
      | ok plan =>
          rw [planned] at accepted
          cases accepted
          obtain ⟨n, -, -, stands⟩ := Document.stands_of_treeWithin sound.forest _ id _ read
          have clean := Plan.each_unmarked _ (sound.forest.fits_of_stands _ _ stands)
            (Sturdy.unmarked _ printable sturdy)
          exact ⟨plan, rfl, Plan.reread_ofRoot neutral id printable sturdy planned,
            Plan.complete_ofRoot unblocked clean.1 clean.2 planned⟩
  | _ => cases element

/-- A source that is accepted is compiled from the first element of its markup. -/
theorem root_compileSource {config : Config} {source : Source} {d : Document} {c : CompiledTemplate}
    (sound : d.Sound) (accepted : ((compileSource config source).run d).1 = .ok c) :
    ∃ markup t d', Fragment.blockify source config.alternateBlockOpen = .ok markup ∧
      CompiledTemplate.treeOf? (rootMarkup config markup) = some t.shape ∧ t.data.isElement = true ∧
      d'.Sound ∧ d'.tree t.label = .ok t ∧
      ((compileNode config source.name t.label).run d').1 = .ok c := by
  obtain ⟨w', ran⟩ : ∃ w', compileSource config source { document := d } = .ok c w' := by
    unfold Compile.run at accepted
    split at accepted
    · rename_i a w' run
      cases accepted
      exact ⟨w', run⟩
    · cases accepted
  unfold compileSource at ran
  cases blocks : Fragment.blockify source config.alternateBlockOpen with
  | error x =>
      rw [blocks] at ran
      cases ran
  | ok markup =>
      rw [blocks, bind_ok (show lift (.ok markup) _ = .ok markup _ from rfl)] at ran
      cases parsed : Document.parseMarkup (rootMarkup config markup) d with
      | error x d' =>
          have ended : edit (Document.parseMarkup (rootMarkup config markup)) { document := d } =
              .error (.dom x) { document := d' } := by simp [edit, parsed]
          rw [bind_error ended] at ran
          cases ran
      | ok fragment d' =>
          rw [bind_ok (edit_ok parsed)] at ran
          obtain ⟨sound, ⟨-, first⟩ | ⟨t, tree, element, first, read⟩⟩ := root_parseMarkup sound parsed
          · rw [bind_ok (ask_ok first)] at ran
            cases ran
          · rw [bind_ok (ask_ok first)] at ran
            refine ⟨markup, t, d', rfl, tree, element, sound, read, ?_⟩
            rw [Compile.run, show compileNode config source.name t.label { document := d' } = _ from ran]

/-- A source that is accepted, and whose first element is printable and sturdy, can be used in the
document where it has been compiled: the template is bound, and any context is rendered into the
expansion of what has been compiled. -/
theorem render_compileSource {config : Config} (neutral : config.Neutral) {source : Source}
    {markup : String} {t : NodeTree Unit}
    (blocks : Fragment.blockify source config.alternateBlockOpen = .ok markup)
    (root : CompiledTemplate.treeOf? (rootMarkup config markup) = some t)
    (unblocked : blockOf? t.data.attributes = none) (printable : t.Printable) (sturdy : t.Sturdy)
    {d : Document} (sound : d.Sound) (lenient : d.strict = false) {c : CompiledTemplate}
    (accepted : ((compileSource config source).run d).1 = .ok c) {env : Environment}
    (standard : env.handlers = .standard) (context : Value) :
    (∃ plan : Plan, c = plan.compiled ∧ plan.Reread) ∧
      ∃ template d₁ d₂ events T,
        Template.ofCompiled env c ((compileSource config source).run d).2.1 = .ok template d₁ ∧
        Rendering.run (template.render context) d₁ = (.ok template.live.root, d₂, events) ∧
        d₂.tree template.live.root = .ok T ∧
        T.shape = c.expand env.keepMarkers (.ofContext context) := by
  obtain ⟨markup', u, d', blocks', tree, element, sound', read, compiled⟩ :=
    root_compileSource sound accepted
  obtain rfl : markup' = markup := Except.ok.inj (blocks'.symm.trans blocks)
  obtain rfl : u.shape = t := Option.some.inj (tree.symm.trans root)
  obtain ⟨plan, rfl, reread, complete⟩ := reread_compileNode neutral source.name sound' read element
    (by rwa [data_shape] at unblocked) (printable_of_shape u printable) (sturdy_of_shape u sturdy) compiled
  have ready : Document.Ready ((compileSource config source).run d).2.1 :=
    (keeps_compileSource Document.lasting_ready config source).run ⟨sound.accounted, lenient⟩
  exact ⟨⟨plan, rfl, reread⟩, Template.render_of_ready standard (reread.shaped complete) context ready⟩

/-- The directive of a greeting stands among other text. -/
theorem render_compileSource_greeting (context : Value) :
    let source : Source := ⟨"page", "<b>Hi \x7b\x7bx\x7d\x7d</b>"⟩
    let env : Environment := {}
    let run := (compileSource {} source).run { name := "page", strict := false }
    ∃ c template d₁ d₂ events T, run.1 = .ok c ∧ c.slots.length = 1 ∧
      Template.ofCompiled env c run.2.1 = .ok template d₁ ∧
      Rendering.run (template.render context) d₁ = (.ok template.live.root, d₂, events) ∧
      d₂.tree template.live.root = .ok T ∧ T.shape = c.expand false (.ofContext context) := by
  intro source env run
  obtain ⟨c, accepted, size⟩ : ∃ c, run.1 = .ok c ∧ c.slots.length = 1 := by
    have outcome : (match run.1 with
      | .ok c => c.slots.length == 1
      | .error _ => false) = true := by decide +kernel
    split at outcome
    · exact ⟨_, ‹_›, by simpa using outcome⟩
    · cases outcome
  let t : NodeTree Unit := .node () (.element "div" [("class", .string "poirot-rendered")]) [
    .node () (.element "b" []) [.node () (.text "Hi \x7b\x7bx\x7d\x7d") []]]
  have blocks : Fragment.blockify source false = .ok "<b>Hi \x7b\x7bx\x7d\x7d</b>" := by decide +kernel
  have markup : rootMarkup {} "<b>Hi \x7b\x7bx\x7d\x7d</b>" = t.print false := by decide +kernel
  have printable : t.Printable :=
    ⟨.ordinary (by decide) (.of_all rfl (c := 'd') rfl rfl) (by decide)
      (List.forall_mem_singleton.2 (.of_all rfl (c := 'c') rfl rfl))
      (List.forall_mem_singleton.2 ⟨_, rfl⟩) (.singleton _),
      ⟨.ordinary (by decide) (.of_all rfl (c := 'b') rfl rfl) (by decide) nofun nofun (.singleton _),
        ⟨by decide, rfl⟩, trivial⟩, trivial⟩
  have unmarked : ¬valuedMarker <:+: "Hi \x7b\x7bx\x7d\x7d".toList := by decide
  have sturdy : t.Sturdy :=
    ⟨.ordinary (by decide) rfl nofun, ⟨.ordinary (by decide) rfl nofun, unmarked, trivial⟩, trivial⟩
  obtain ⟨-, template, d₁, d₂, events, T, built, rendered, read, shape⟩ :=
    render_compileSource Config.neutral_default blocks
      (CompiledTemplate.treeOf?_print markup rfl printable) rfl printable sturdy
      (Document.sound_empty "page" false) rfl accepted (show env.handlers = .standard from rfl) context
  exact ⟨c, template, d₁, d₂, events, T, accepted, size, built, rendered, read, shape⟩

end Compile

end Stencil
