import Stencil.Proofs.Compile.Pieces

/-! # Compiling keeps the directives

Reading the references of a compiled template in order, and those of a block where the block
is referred to, gives the directives of the tree from which it was compiled: the first one
of each attribute, and all those of each text.
-/

namespace Stencil

open Markup NodeTree

/-- What is read in a template: a binding, or a template with what is read in it. -/
inductive Reading where
  | binding (b : Binding)
  | part (expression : Option String) (inside : List Reading)

namespace CompiledTemplate

mutual

/-- The references of a template, slot by slot. -/
def readings : CompiledTemplate → List Reading
  | ⟨slots, _, _⟩ => readSlots slots

def readSlots : List (List (Reference CompiledTemplate)) → List Reading
  | [] => []
  | slot :: slots => readSlot slot ++ readSlots slots

def readSlot : List (Reference CompiledTemplate) → List Reading
  | [] => []
  | r :: rs => readReference r :: readSlot rs

def readReference : Reference CompiledTemplate → Reading
  | .binding b => .binding b
  | .template t => .part t.expression (readings t)

end

theorem readSlots_append (slots more : List (List (Reference CompiledTemplate))) :
    readSlots (slots ++ more) = readSlots slots ++ readSlots more := by
  induction slots with
  | nil => rfl
  | cons slot slots ih => simp [readSlots, ih]

theorem readSlot_append (slot more : List (Reference CompiledTemplate)) :
    readSlot (slot ++ more) = readSlot slot ++ readSlot more := by
  induction slot with
  | nil => rfl
  | cons r rs ih => simp [readSlot, ih]

end CompiledTemplate

namespace Reading

open Compile

/-! ## The directives of a tree -/

/-- What is read for a directive, `attr` being the attribute in which it stands. -/
def ofDirective (source : Source) (attr : Option String) (o : Occurrence) :
    Except SyntaxError Reading := do
  let directive ← o.directive source
  return .binding { kind := directive.kind, key := directive.key, attr, block := directive.block }

/-- The first directive of an attribute that is no block marker. -/
def ofAttribute (s : Settings) (entry : String × Value) : Except SyntaxError (List Reading) :=
  if entry.1 = Marker.block then .ok []
  else do
    let source := s.source entry.2.text
    match ← Occurrence.first? source with
    | none => return []
    | some o => return [← ofDirective source (some entry.1) o]

/-- All directives of a text. -/
def ofText (s : Settings) (value : String) : Except SyntaxError (List Reading) := do
  let source := s.source value
  (← Occurrence.all source).mapM (ofDirective source none)

mutual

/-- The directives of a tree in document order, those of a block inside the block. -/
def ofTree {ι : Type} (s : Settings) : NodeTree ι → Except SyntaxError (List Reading)
  | .node _ data children =>
      match data with
      | .text value => ofText s value
      | .element _ attributes => do
          let own ← attributes.mapM (ofAttribute s)
          let below ← ofTrees s children
          match blockOf? attributes with
          | some identity => return own.flatten ++ [.part (some identity) below]
          | none => return own.flatten ++ below
      | _ => .ok []

def ofTrees {ι : Type} (s : Settings) : List (NodeTree ι) → Except SyntaxError (List Reading)
  | [] => .ok []
  | t :: ts => do
      let own ← ofTree s t
      return own ++ (← ofTrees s ts)

end

end Reading

/-- A block marker is the only attribute of its element. -/
def MarksAlone (data : NodeData) : Prop :=
  Compile.blockOf? data.attributes ≠ none → ∀ entry ∈ data.attributes, entry.1 = Marker.block

namespace Plan

open Compile CompiledTemplate

variable {s : Settings}

/-- What is read at the hosts of trees. -/
def read (ts : List (NodeTree Slot)) : List Reading := readSlots ((hostsAll ts).map label)

@[simp] theorem read_nil : read [] = [] := rfl

theorem read_append (ts us : List (NodeTree Slot)) : read (ts ++ us) = read ts ++ read us := by
  rw [read, hostsAll_append, List.map_append, readSlots_append]
  rfl

@[simp] theorem read_node (slot : Slot) (data : NodeData) (ts : List (NodeTree Slot)) :
    read [.node slot data ts] = readSlot slot ++ read ts := by
  cases slot with
  | nil => simp [read, hostsAll, hosts, readSlot]
  | cons r rs => simp [read, hostsAll, hosts, readSlots, NodeTree.label]

theorem readings_emit (t : NodeTree Slot) (expression : Option String) :
    (emit t expression).readings = read [t] := by
  simp [emit, readings, read, hostsAll]

/-! ## Attributes and texts -/

theorem readings_of_binding {source : Source} {o : Occurrence} {attr : Option String} {b : Binding}
    (h : binding source o attr = .ok b) : Reading.ofDirective source attr o = .ok (.binding b) := by
  unfold binding at h
  unfold Reading.ofDirective
  cases known : o.directive source with
  | error e => simp [known, Except.map] at h
  | ok directive =>
      simp only [known, Except.map, Except.ok.injEq] at h
      subst h
      rfl

theorem readings_of_attribute {name : String} {value kept : Value} {slot : Slot}
    (h : ofAttribute s name value = .ok (kept, slot)) :
    Reading.ofAttribute s (name, value) = .ok (readSlot slot) := by
  unfold ofAttribute at h
  unfold Reading.ofAttribute
  by_cases block : name = Marker.block
  · rw [if_pos block] at h
    cases h
    rw [if_pos block]
    rfl
  · rw [if_neg block] at h
    rw [if_neg block]
    obtain ⟨first, found, h⟩ := bind_eq_ok.1 h
    simp only [found]
    cases first with
    | none =>
        cases h
        rfl
    | some o =>
        obtain ⟨b, known, h⟩ := bind_eq_ok.1 h
        cases h
        simp only [ok_bind, readings_of_binding known]
        rfl

theorem readings_of_attributes {attributes kept : List (String × Value)} {slot : Slot}
    (h : ofAttributes s attributes = .ok (kept, slot)) :
    ∃ own, attributes.mapM (Reading.ofAttribute s) = .ok own ∧ own.flatten = readSlot slot := by
  induction attributes generalizing kept slot with
  | nil =>
      cases h
      exact ⟨[], rfl, rfl⟩
  | cons entry more ih =>
      obtain ⟨name, value⟩ := entry
      rw [ofAttributes] at h
      obtain ⟨⟨left, first⟩, known, h⟩ := bind_eq_ok.1 h
      obtain ⟨⟨others, rest⟩, later, h⟩ := bind_eq_ok.1 h
      cases h
      obtain ⟨own, read, flat⟩ := ih later
      refine ⟨readSlot first :: own, ?_, ?_⟩
      · rw [List.mapM_cons, readings_of_attribute known, ok_bind, read]
        rfl
      · rw [List.flatten_cons, flat, readSlot_append]

theorem read_literal (value : String) : read (literal value) = [] := by
  unfold literal
  split
  · rfl
  · simp [readSlot]

theorem readings_of_occurrences {source : Source} {found : List Occurrence}
    {trees : List (NodeTree Slot)} (h : ofOccurrences s source found = .ok trees) :
    found.mapM (Reading.ofDirective source none) = .ok (read trees) := by
  induction found generalizing trees with
  | nil =>
      cases h
      rfl
  | cons o found ih =>
      rw [ofOccurrences] at h
      obtain ⟨own, planned, h⟩ := bind_eq_ok.1 h
      obtain ⟨others, more, h⟩ := bind_eq_ok.1 h
      cases h
      rw [ofOccurrence] at planned
      obtain ⟨b, known, planned⟩ := bind_eq_ok.1 planned
      cases planned
      rw [List.mapM_cons, readings_of_binding known, ok_bind, ih more]
      simp [read_append, read_literal]
      rfl

theorem readings_of_text {value : String} {trees : List (NodeTree Slot)}
    (h : ofText s value = .ok trees) : Reading.ofText s value = .ok (read trees) := by
  unfold ofText at h
  unfold Reading.ofText
  obtain ⟨found, all, h⟩ := bind_eq_ok.1 h
  simp only [all, ok_bind]
  by_cases none_found : found.isEmpty
  · rw [if_pos none_found] at h
    cases h
    rw [List.isEmpty_iff.1 none_found]
    rfl
  · rw [if_neg none_found] at h
    obtain ⟨pieces, planned, h⟩ := bind_eq_ok.1 h
    cases h
    rw [readings_of_occurrences planned, read_append, read_literal, List.append_nil]

theorem readings_of_blank {value : String} (blank : isBlankText value = true) :
    Reading.ofText s value = .ok [] := by
  have nothing : Occurrence.all (s.source value) = .ok [] :=
    Occurrence.all_of_plain (Text.plain_of_isBlankText blank)
  simp only [Reading.ofText, nothing]
  rfl

/-! ## Trees -/

/-- A block marker by itself is no directive. -/
theorem readings_of_marker {attributes : List (String × Value)}
    (alone : ∀ entry ∈ attributes, entry.1 = Marker.block) :
    ∃ own, attributes.mapM (Reading.ofAttribute s) = .ok own ∧ own.flatten = [] := by
  induction attributes with
  | nil => exact ⟨[], rfl, rfl⟩
  | cons entry more ih =>
      obtain ⟨own, read, flat⟩ := ih fun entry mem => alone entry (List.mem_cons_of_mem _ mem)
      refine ⟨[] :: own, ?_, flat⟩
      have first : Reading.ofAttribute s entry = .ok [] := if_pos (alone entry (by simp))
      rw [List.mapM_cons, first, ok_bind, read]
      rfl

theorem readings_of_blanks {ts : List (NodeTree NodeId)} (blank : ts.all soleBlock?.isBlank = true) :
    Reading.ofTrees s ts = .ok [] := by
  induction ts with
  | nil => rfl
  | cons t ts ih =>
      rw [List.all_cons, Bool.and_eq_true] at blank
      obtain ⟨id, data, children⟩ := t
      cases data with
      | text value =>
          rw [Reading.ofTrees, Reading.ofTree, readings_of_blank blank.1, ok_bind, ih blank.2]
          rfl
      | _ => cases blank.1

theorem read_block (name : String) (kept : List (String × Value)) (slot : Slot) (identity : String)
    (below : Sketch) :
    read (block name kept slot identity below).trees =
      readSlot slot ++ [.part (some identity) (read below.trees)] := by
  have inside : (part name identity below).compiled.readings = read below.trees := by
    rw [compiled, readings_emit, part, Plan.tree, read_node]
    rfl
  rw [block, read_node, readSlot_append]
  simp [readSlot, readReference, inside]
  rfl

/-- An element that holds a single directive is read as the text that it holds. -/
theorem readings_of_content {children : List (NodeTree NodeId)} {own : Slot} {below : Sketch}
    (h : ofContent s children (ofTrees s children) = .ok (own, below))
    (inner : ∀ {sketch}, ofTrees s children = .ok sketch →
      Reading.ofTrees s children = .ok (read sketch.trees)) :
    Reading.ofTrees s children = .ok (readSlot own ++ read below.trees) := by
  unfold ofContent at h
  obtain ⟨sole, known, h⟩ := bind_eq_ok.1 h
  cases sole with
  | none =>
      obtain ⟨sketch, planned, h⟩ := bind_eq_ok.1 h
      cases h
      exact inner planned
  | some found =>
      obtain ⟨source, o⟩ := found
      obtain ⟨b, bound, h⟩ := bind_eq_ok.1 h
      cases h
      unfold soleDirective? at known
      split at known
      · rename_i value _
        obtain ⟨whole, there, known⟩ := bind_eq_ok.1 known
        obtain ⟨o', same, pair⟩ := Option.map_eq_some_iff.1 (Except.ok.inj known)
        cases pair
        subst same
        have all := Occurrence.all_of_whole there
        simp only [Reading.ofTrees, Reading.ofTree, Reading.ofText, all, ok_bind,
          List.mapM_cons, List.mapM_nil, readings_of_binding bound]
        rfl
      · cases known

mutual

theorem readings_of_tree : (t : NodeTree NodeId) → t.Each MarksAlone → ∀ {sketch},
    ofTree s t = .ok sketch → Reading.ofTree s t = .ok (read sketch.trees)
  | .node id data children, alone, sketch, h => by
      cases data with
      | text value =>
          rw [ofTree] at h
          obtain ⟨trees, planned, h⟩ := bind_eq_ok.1 h
          cases h
          exact readings_of_text planned
      | element name attributes =>
          simp only [ofTree] at h
          obtain ⟨⟨kept, slot⟩, known, h⟩ := bind_eq_ok.1 h
          obtain ⟨own, read, flat⟩ := readings_of_attributes known
          simp only [Reading.ofTree, read, ok_bind]
          cases marked : blockOf? attributes with
          | some identity =>
              rw [marked] at h
              obtain ⟨below, planned, h⟩ := bind_eq_ok.1 h
              cases h
              simp only [readings_of_trees children alone.2 planned, ok_bind, read_block, flat]
              rfl
          | none =>
              cases sole : soleBlock? children with
              | some found =>
                  rw [marked, sole] at h
                  obtain ⟨below, planned, h⟩ := bind_eq_ok.1 h
                  cases h
                  simp only [readings_of_promoted children alone.2 sole planned, ok_bind,
                    read_block, flat]
                  rfl
              | none =>
                  rw [marked, sole] at h
                  obtain ⟨⟨content, below⟩, planned, h⟩ := bind_eq_ok.1 h
                  cases h
                  simp only [readings_of_content planned (readings_of_trees children alone.2),
                    ok_bind, read_node, readSlot_append, flat, List.append_assoc]
                  rfl
      | comment value | fragment | doctype value =>
          cases h
          rfl

theorem readings_of_trees : (ts : List (NodeTree NodeId)) → EachAll MarksAlone ts → ∀ {sketch},
    ofTrees s ts = .ok sketch → Reading.ofTrees s ts = .ok (read sketch.trees)
  | [], _, sketch, h => by
      cases h
      rfl
  | t :: ts, alone, sketch, h => by
      rw [ofTrees] at h
      obtain ⟨own, planned, h⟩ := bind_eq_ok.1 h
      obtain ⟨others, more, h⟩ := bind_eq_ok.1 h
      cases h
      rw [Reading.ofTrees, readings_of_tree t alone.1 planned, ok_bind,
        readings_of_trees ts alone.2 more, read_append]
      rfl

/-- Of an element that holds a block and blanks, the block is read. -/
theorem readings_of_promoted : (ts : List (NodeTree NodeId)) → EachAll MarksAlone ts →
    ∀ {marker identity sketch}, soleBlock? ts = some (marker, identity) →
    ofPromoted s ts = .ok sketch →
    Reading.ofTrees s ts = .ok [.part (some identity) (read sketch.trees)]
  | [], _, _, _, _, sole, _ => by cases sole
  | .node id data children :: more, alone, marker, identity, sketch, sole, h => by
      rw [ofPromoted] at h
      cases data with
      | text value =>
          rw [soleBlock?] at sole
          split at sole
          · rename_i blank
            rw [Reading.ofTrees, Reading.ofTree, readings_of_blank blank, ok_bind,
              readings_of_promoted more alone.2 sole h]
            rfl
          · cases sole
      | element name attributes =>
          rw [soleBlock?] at sole
          cases marked : blockOf? attributes with
          | none => simp [marked] at sole
          | some value =>
              simp only [marked] at sole
              split at sole
              · rename_i blank
                cases sole
                have lone : ∀ entry ∈ attributes, entry.1 = Marker.block :=
                  alone.1.1 (show blockOf? attributes ≠ none by rw [marked]; nofun)
                obtain ⟨own, read, flat⟩ := readings_of_marker (s := s) lone
                simp only [Reading.ofTrees, Reading.ofTree, read, ok_bind, marked,
                  readings_of_trees children alone.1.2 h, readings_of_blanks blank, flat]
                rfl
              · cases sole
      | comment value | fragment | doctype value => cases sole

end

theorem readings_of_root {name : String} {attributes : List (String × Value)}
    {children : List (NodeTree NodeId)} {d : Plan} (id : NodeId)
    (alone : EachAll MarksAlone children) (unmarked : blockOf? attributes = none)
    (h : ofRoot s name attributes children = .ok d) :
    Reading.ofTree s (.node id (.element name attributes) children) = .ok d.compiled.readings := by
  obtain ⟨kept, slot, own, below, known, planned, rfl⟩ := ofRoot_eq_ok h
  obtain ⟨first, read, flat⟩ := readings_of_attributes known
  rw [compiled, readings_emit, Plan.tree, read_node, readSlot_append, List.append_assoc]
  simp only [Reading.ofTree, read, ok_bind, unmarked,
    readings_of_content planned (readings_of_trees children alone), flat]
  rfl

end Plan

/-! ## Templates -/

namespace Compile

/-- A template that has been compiled from an element refers to the directives of the
element's tree in document order, to each exactly once, and to each block in it as a template
of its own. Only what the block markers themselves say is not searched for directives. -/
theorem readings_of_compileNode (config : Config) (title : String) {d : Document} {id : NodeId}
    {name : String} {attributes : List (String × Value)} {children : List (NodeTree NodeId)}
    {c : CompiledTemplate} (sound : d.Sound)
    (read : d.tree id = .ok (.node id (.element name attributes) children))
    (unmarked : blockOf? attributes = none) (alone : EachAll MarksAlone children)
    (accepted : ((compileNode config title id).run d).1 = .ok c) :
    Reading.ofTree { config, name := title } (.node id (.element name attributes) children) =
      .ok c.readings := by
  obtain ⟨plan, w', planned, written, -⟩ :=
    (compileNode_follows (w := { document := d }) config title sound read).of_run accepted
  rw [written.compiled]
  exact Plan.readings_of_root id alone unmarked planned

/-- A list with a title, in which a block shows one item. -/
theorem readings_of_compileNode_list :
    let t : NodeTree NodeId :=
      .node ⟨0⟩ (.element "ul" [("title", .string "{{t}}")]) [
        .node ⟨1⟩ (.element "div" [(Marker.block, .string "items")]) [
          .node ⟨2⟩ (.element "li" []) [.node ⟨3⟩ (.text "{{{x}}}") []]]]
    let d := (Document.plant none { name := "page", strict := false } t).2
    ∃ c, ((compileNode {} "page" ⟨0⟩).run d).1 = .ok c ∧
      Reading.ofTree { config := {}, name := "page" } t = .ok c.readings ∧
      c.readings = [.binding { kind := .escaped, key := "t", attr := some "title" },
        .part (some "items") [.binding { kind := .literal, key := "x" }]] := by
  intro t d
  have sound : d.Sound := Document.sound_plant (Document.sound_empty "page" false) (by
    simp [t, Fits, FitAll, NodeTree.data, View.AttributesDistinct, NodeData.attributes,
      NodeData.isContainer])
  have read : d.tree ⟨0⟩ = .ok t := rfl
  have alone : EachAll MarksAlone t.children := by
    simp [t, NodeTree.children, EachAll, Each, MarksAlone, blockOf?, NodeData.attributes]
  let item : Plan.Sketch := ⟨[.node [.binding { kind := .literal, key := "x" }] (.element "li" []) []], []⟩
  let block := Plan.block "div" [(Marker.block, .string "items")] [] "items" item
  have planned : Plan.ofRoot { config := {}, name := "page" } "ul" [("title", .string "{{t}}")]
      t.children = .ok (.plan
        (.node [.binding { kind := .escaped, key := "t", attr := some "title" }]
          (.element "ul" [("title", .string "")]) block.trees) none block.parts) := rfl
  have accepted := compileNode_accepts {} "page" sound read planned
  exact ⟨_, accepted, readings_of_compileNode {} "page" sound read rfl alone accepted, rfl⟩

/-- A directive in a block marker is none: the marker only names what the block repeats. -/
theorem readings_of_compileNode_marker :
    let t : NodeTree NodeId :=
      .node ⟨0⟩ (.element "p" []) [.node ⟨1⟩ (.element "i" [(Marker.block, .string "{{x}}")]) []]
    let d := (Document.plant none { name := "page", strict := false } t).2
    ∃ c o, d.Sound ∧ d.tree ⟨0⟩ = .ok t ∧ EachAll MarksAlone t.children ∧
      ((compileNode {} "page" ⟨0⟩).run d).1 = .ok c ∧
      Occurrence.first? { name := "page", text := "{{x}}" } = .ok (some o) ∧
      o.directive { name := "page", text := "{{x}}" } =
        .ok { kind := .escaped, key := "x", block := none } ∧
      c.readings = [.part (some "{{x}}") []] := by
  intro t d
  have sound : d.Sound := Document.sound_plant (Document.sound_empty "page" false) (by
    simp [t, Fits, FitAll, NodeTree.data, View.AttributesDistinct, NodeData.attributes,
      NodeData.isContainer])
  have read : d.tree ⟨0⟩ = .ok t := rfl
  have alone : EachAll MarksAlone t.children := by
    simp [t, NodeTree.children, EachAll, Each, MarksAlone, blockOf?, NodeData.attributes]
  let part := Plan.part "i" "{{x}}" ⟨[], []⟩
  have planned : Plan.ofRoot { config := {}, name := "page" } "p" [] t.children = .ok (.plan
      (.node [] (.element "p" []) [.node [.template part.compiled] (.element (Text.lower "i") []) []])
      none [part]) := rfl
  let o := Occurrence.place 0 [] ⟨['{', '{'], ['x'], ['}', '}']⟩
  exact ⟨_, o, sound, read, alone, compileNode_accepts {} "page" sound read planned, rfl, rfl, rfl⟩

end Compile

end Stencil
