import Stencil.Proofs.Compile.Emitted

/-! # Static content

What the markup of a template shows of its source: the source itself, with directives taken
out of texts and attributes and a marker on every element that has got a binding. It is
described on the tree of the source alone, without plans and without a document.
-/

namespace Stencil

open Markup NodeTree View Compile

namespace Static

/-- Whether a text holds a directive. -/
def holds (value : String) : Bool := (Text.find? Mustache.at? value.toList).isSome

/-- Whether a text is one directive and nothing else. -/
def isDirective (value : String) : Bool :=
  match Text.find? Mustache.at? value.toList with
  | some ⟨[], _, []⟩ => true
  | _ => false

/-- The element that stands for a directive in a text. -/
def wrapper (config : Config) : NodeTree Unit :=
  .node () (.element (Text.lower config.wrapperTag) [(Marker.host, .string "")]) []

/-- A piece of text, unless it is empty. -/
def literal (value : List Char) : List (NodeTree Unit) :=
  if value.isEmpty then [] else [.node () (.text (String.ofList value)) []]

/-- A text that holds directives is the run of its literal pieces, with a wrapper for every
directive; any other text stays as it is. -/
def ofText (config : Config) (value : String) : List (NodeTree Unit) :=
  if holds value then
    let (tiles, trailing) := Text.tiles Mustache.at? value.toList
    tiles.flatMap (fun tile => literal tile.1 ++ [wrapper config]) ++ literal trailing
  else [.node () (.text value) []]

/-- An attribute whose value holds a directive is empty. -/
def ofAttribute (entry : String × Value) : String × Value :=
  if holds entry.2.text then (entry.1, .string "") else entry

/-- Whether the only thing in an element is one directive. -/
def isSole {ι : Type} : List (NodeTree ι) → Bool
  | [.node _ (.text value) _] => isDirective value
  | _ => false

/-- Whether an element gets a binding. -/
def isBound {ι : Type} (attributes : List (String × Value)) (children : List (NodeTree ι)) : Bool :=
  attributes.any (fun entry => holds entry.2.text) || isSole children

/-- The attributes of an element in order, with the host marker behind them if the element
is bound. -/
def ofAttributes {ι : Type} (attributes : List (String × Value)) (children : List (NodeTree ι)) :
    List (String × Value) :=
  attributes.map ofAttribute ++ if isBound attributes children then [(Marker.host, .string "")] else []

mutual

/-- What a tree of the source becomes. -/
def ofTree {ι : Type} (config : Config) : NodeTree ι → List (NodeTree Unit)
  | .node _ data children =>
      match data with
      | .text value => ofText config value
      | .element name attributes =>
          [.node () (.element name (ofAttributes attributes children))
            (if isSole children then [] else ofTrees config children)]
      | data => [.node () data (ofTrees config children)]

def ofTrees {ι : Type} (config : Config) : List (NodeTree ι) → List (NodeTree Unit)
  | [] => []
  | t :: ts => ofTree config t ++ ofTrees config ts

end

/-! ## Texts -/

variable {s : Settings}

theorem holds_eq_false {value : String} : holds value = false ↔ Text.Plain value := by
  rw [holds, Option.isSome_eq_false_iff, Option.isNone_iff_eq_none, Text.Plain]

theorem tiles_ne_nil {value : String} (h : holds value = true) :
    (Text.tiles Mustache.at? value.toList).1 ≠ [] := by
  obtain ⟨inside, there⟩ := Option.isSome_iff_exists.1 h
  have shorter := Text.find?_after_length_lt Mustache.reads_at? there
  rw [Text.tiles, there]
  simp [shorter]

theorem markAll_append (ts us : List (NodeTree Slot)) :
    Plan.markAll (ts ++ us) = Plan.markAll ts ++ Plan.markAll us := by
  induction ts with
  | nil => rfl
  | cons t ts ih => rw [List.cons_append, Plan.markAll, ih, Plan.markAll, List.cons_append]

theorem markAll_literal (value : List Char) :
    Plan.markAll (Plan.literal (String.ofList value)) = literal value := by
  cases value with
  | nil => rfl
  | cons c cs =>
      have filled : (String.ofList (c :: cs)).isEmpty = false := by
        simp [String.ofList_eq_empty_iff]
      rw [Plan.literal, filled]
      rfl

theorem markAll_ofOccurrences {source : Source} {tiles : List (List Char × Mustache)} {start : Nat}
    {trees : List (NodeTree Slot)}
    (h : Plan.ofOccurrences s source (Occurrence.placeAll start tiles) = .ok trees) :
    Plan.markAll trees = tiles.flatMap fun tile => literal tile.1 ++ [wrapper s.config] := by
  induction tiles generalizing start trees with
  | nil =>
      cases h
      rfl
  | cons tile tiles ih =>
      obtain ⟨before, m⟩ := tile
      rw [Occurrence.placeAll, Plan.ofOccurrences] at h
      obtain ⟨own, planned, h⟩ := bind_eq_ok.1 h
      obtain ⟨others, more, h⟩ := bind_eq_ok.1 h
      cases h
      obtain ⟨b, -, planned⟩ := bind_eq_ok.1 planned
      cases planned
      rw [List.flatMap_cons, markAll_append, markAll_append, ih more, Occurrence.place, markAll_literal]
      rfl

theorem markAll_ofText {value : String} {trees : List (NodeTree Slot)}
    (h : Plan.ofText s value = .ok trees) : Plan.markAll trees = ofText s.config value := by
  unfold Plan.ofText at h
  obtain ⟨found, all, h⟩ := bind_eq_ok.1 h
  cases some_there : holds value with
  | false =>
      rw [Occurrence.all_of_plain (holds_eq_false.1 some_there)] at all
      cases all
      cases h
      rw [ofText, some_there]
      rfl
  | true =>
      have placed := Occurrence.all_eq_ok all
      have filled : found.isEmpty = false := by
        obtain ⟨tile, more, tiles⟩ := List.exists_cons_of_ne_nil (tiles_ne_nil some_there)
        rw [placed, Settings.source, tiles]
        rfl
      simp only [filled, Bool.false_eq_true, if_false] at h
      obtain ⟨pieces, planned, h⟩ := bind_eq_ok.1 h
      cases h
      rw [placed] at planned
      rw [markAll_append, markAll_ofOccurrences planned, Occurrence.trailing, markAll_literal, ofText,
        some_there]
      rfl

/-! ## Elements -/

theorem ofAttribute_kept {name : String} {value left : Value} {slot : Slot}
    (other : name ≠ Marker.block) (h : Plan.ofAttribute s name value = .ok (left, slot)) :
    (name, left) = ofAttribute (name, value) ∧ slot.isEmpty = !holds value.text := by
  unfold Plan.ofAttribute at h
  rw [if_neg other] at h
  obtain ⟨first, found, h⟩ := bind_eq_ok.1 h
  cases first with
  | none =>
      cases h
      have plain : holds value.text = false := holds_eq_false.2 (Occurrence.first?_eq_ok_none found)
      rw [ofAttribute, plain]
      exact ⟨rfl, rfl⟩
  | some o =>
      obtain ⟨b, -, h⟩ := bind_eq_ok.1 h
      cases h
      obtain ⟨inside, there, -⟩ := Occurrence.first?_eq_ok_some found
      have some_there : holds value.text = true := Option.isSome_iff_exists.2 ⟨inside, there⟩
      rw [ofAttribute, some_there]
      exact ⟨rfl, rfl⟩

theorem ofAttributes_kept {attributes kept : List (String × Value)} {slot : Slot}
    (unblocked : Marker.block ∉ attributes.map Prod.fst)
    (h : Plan.ofAttributes s attributes = .ok (kept, slot)) :
    kept = attributes.map ofAttribute ∧
      slot.isEmpty = !attributes.any fun entry => holds entry.2.text := by
  induction attributes generalizing kept slot with
  | nil =>
      cases h
      exact ⟨rfl, rfl⟩
  | cons entry more ih =>
      obtain ⟨name, value⟩ := entry
      rw [List.map_cons, List.mem_cons, not_or] at unblocked
      rw [Plan.ofAttributes] at h
      obtain ⟨⟨left, first⟩, known, h⟩ := bind_eq_ok.1 h
      obtain ⟨⟨others, rest⟩, later, h⟩ := bind_eq_ok.1 h
      cases h
      obtain ⟨same, own⟩ := ofAttribute_kept (Ne.symm unblocked.1) known
      obtain ⟨rfl, none_later⟩ := ih unblocked.2 later
      refine ⟨by rw [List.map_cons, same], ?_⟩
      rw [List.any_cons, Bool.not_or, ← own, ← none_later]
      cases first <;> rfl

theorem whole?_isSome {source : Source} {found : Option Occurrence}
    (h : Occurrence.whole? source = .ok found) : found.isSome = isDirective source.text := by
  cases found with
  | some o =>
      obtain ⟨m, there, -⟩ := Occurrence.find?_of_whole h
      rw [isDirective, there]
      rfl
  | none =>
      symm
      rw [Option.isSome_none, isDirective]
      split
      · rename_i m there
        -- such a directive has the length of the text, so it would have been accepted
        have text := Text.find?_eq_some Mustache.reads_at? there
        have same : (Occurrence.place 0 [] m).whole = source.text := by
          rw [Occurrence.whole, Occurrence.place, ← String.ofList_toList (s := source.text), text]
          simp
        simp only [Occurrence.whole?, Occurrence.first?, there] at h
        cases checked : Occurrence.check source (Occurrence.place 0 [] m) with
        | error e => simp [checked, Except.map] at h
        | ok o =>
            obtain rfl := Occurrence.check_eq_ok checked
            simp [checked, Except.map, same] at h
      · rfl

theorem soleDirective?_isSome {children : List (NodeTree NodeId)}
    {sole : Option (Source × Occurrence)} (h : soleDirective? s children = .ok sole) :
    sole.isSome = isSole children := by
  unfold soleDirective? at h
  split at h
  · obtain ⟨found, whole, h⟩ := bind_eq_ok.1 h
    cases h
    rw [Option.isSome_map, whole?_isSome whole]
    rfl
  · rename_i other
    cases h
    rw [isSole]
    · rfl
    · exact other

theorem isEmpty_append {α : Type} (xs ys : List α) :
    (xs ++ ys).isEmpty = (xs.isEmpty && ys.isEmpty) := by
  cases xs <;> rfl

/-- Neither a block nor a host of another template. -/
def Unmarked (data : NodeData) : Prop :=
  hasMarker Marker.block data.attributes = false ∧ hasMarker Marker.host data.attributes = false

theorem blockOf?_eq_none {attributes : List (String × Value)}
    (h : hasMarker Marker.block attributes = false) : blockOf? attributes = none := by
  rw [blockOf?, Option.map_eq_none_iff, ← Option.isNone_iff_eq_none, ← Option.isSome_eq_false_iff]
  exact h

theorem soleBlock?_eq_none {children : List (NodeTree NodeId)} (clean : EachAll Unmarked children) :
    soleBlock? children = none := by
  induction children with
  | nil => rfl
  | cons t ts ih =>
      obtain ⟨id, data, below⟩ := t
      cases data with
      | text value =>
          rw [soleBlock?, ih clean.2, ite_self]
      | element name attributes =>
          have unblocked : blockOf? attributes = none := blockOf?_eq_none clean.1.1.1
          rw [soleBlock?, unblocked]
      | comment value | fragment | doctype value => rfl

/-- An element that stays, with a marker if it has references. -/
theorem markAll_element {attributes kept : List (String × Value)} {slot own : Slot} {name : String}
    {below : List (NodeTree Slot)} {children : List (NodeTree NodeId)}
    (clean : Unmarked (.element name attributes))
    (known : Plan.ofAttributes s attributes = .ok (kept, slot))
    (sole : own.isEmpty = !isSole children) :
    Plan.markAll [.node (slot ++ own) (.element name kept) below] =
      [.node () (.element name (ofAttributes attributes children)) (Plan.markAll below)] := by
  obtain ⟨unblocked, unmarked⟩ : hasMarker Marker.block attributes = false ∧
    hasMarker Marker.host attributes = false := clean
  obtain ⟨rfl, unbound⟩ := ofAttributes_kept (hasMarker_eq_false.1 unblocked) known
  have bound : (slot ++ own).isEmpty = !isBound attributes children := by
    rw [isEmpty_append, unbound, sole, isBound, Bool.not_or]
  have names : (attributes.map ofAttribute).map Prod.fst = attributes.map Prod.fst := by
    rw [List.map_map]
    refine List.map_congr_left fun entry _ => ?_
    rw [Function.comp_apply, ofAttribute]
    split <;> rfl
  rw [Plan.markAll, Plan.mark, Plan.markAll, bound, ofAttributes]
  cases isBound attributes children with
  | false => simp
  | true =>
      have new : Marker.host ∉ (attributes.map ofAttribute).map Prod.fst :=
        names ▸ hasMarker_eq_false.1 unmarked
      simp [Plan.markData, Document.putField_new _ new]

/-! ## Trees -/

/-- What an element holds is one directive, which is taken out, or what its children become. -/
theorem markAll_ofContent {children : List (NodeTree NodeId)} {own : Slot} {below : Plan.Sketch}
    (h : Plan.ofContent s children (Plan.ofTrees s children) = .ok (own, below))
    (inner : ∀ {sketch}, Plan.ofTrees s children = .ok sketch →
      Plan.markAll sketch.trees = ofTrees s.config children) :
    own.isEmpty = !isSole children ∧
      Plan.markAll below.trees = if isSole children then [] else ofTrees s.config children := by
  unfold Plan.ofContent at h
  obtain ⟨sole, known, h⟩ := bind_eq_ok.1 h
  rw [← soleDirective?_isSome known]
  cases sole with
  | none =>
      obtain ⟨sketch, planned, h⟩ := bind_eq_ok.1 h
      cases h
      exact ⟨rfl, inner planned⟩
  | some found =>
      obtain ⟨b, -, h⟩ := bind_eq_ok.1 h
      cases h
      exact ⟨rfl, rfl⟩

mutual

theorem markAll_ofTree : (t : NodeTree NodeId) → t.data ≠ .fragment → t.Fits → t.Each Unmarked →
    ∀ {sketch}, Plan.ofTree s t = .ok sketch →
    Plan.markAll sketch.trees = ofTree s.config t
  | .node id data children, top, fits, clean, sketch, h => by
      cases data with
      | text value =>
          rw [Plan.ofTree] at h
          obtain ⟨trees, planned, h⟩ := bind_eq_ok.1 h
          cases h
          exact markAll_ofText planned
      | element name attributes =>
          have unblocked : blockOf? attributes = none := blockOf?_eq_none clean.1.1
          simp only [Plan.ofTree, unblocked, soleBlock?_eq_none clean.2] at h
          obtain ⟨⟨kept, slot⟩, known, h⟩ := bind_eq_ok.1 h
          obtain ⟨⟨own, below⟩, planned, h⟩ := bind_eq_ok.1 h
          cases h
          obtain ⟨sole, inside⟩ := markAll_ofContent planned (markAll_ofTrees children fits.2.2 clean.2)
          rw [markAll_element clean.1 known sole, inside]
          rfl
      | fragment => exact (top rfl).elim
      | comment value | doctype value =>
          cases h
          obtain rfl : children = [] := by
            refine Classical.byContradiction fun filled => ?_
            cases fits.2.1 filled
          rfl

theorem markAll_ofTrees : (ts : List (NodeTree NodeId)) → FitAll ts → EachAll Unmarked ts →
    ∀ {sketch}, Plan.ofTrees s ts = .ok sketch →
    Plan.markAll sketch.trees = ofTrees s.config ts
  | [], _, _, sketch, h => by
      cases h
      rfl
  | t :: ts, fits, clean, sketch, h => by
      rw [Plan.ofTrees] at h
      obtain ⟨own, planned, h⟩ := bind_eq_ok.1 h
      obtain ⟨others, more, h⟩ := bind_eq_ok.1 h
      cases h
      rw [markAll_append, markAll_ofTree t fits.1.1 fits.1.2 clean.1 planned,
        markAll_ofTrees ts fits.2 clean.2 more]
      rfl

end

theorem mark_ofRoot {id : NodeId} {name : String} {attributes : List (String × Value)}
    {children : List (NodeTree NodeId)} {d : Plan}
    (fits : Fits (.node id (.element name attributes) children))
    (clean : Each Unmarked (.node id (.element name attributes) children))
    (h : Plan.ofRoot s name attributes children = .ok d) :
    [Plan.mark d.tree] = ofTree s.config (.node id (.element name attributes) children) := by
  obtain ⟨kept, slot, own, below, known, planned, rfl⟩ := Plan.ofRoot_eq_ok h
  obtain ⟨sole, inside⟩ := markAll_ofContent planned (markAll_ofTrees children fits.2.2 clean.2)
  have marked : Plan.markAll [.node (slot ++ own) (.element name kept) below.trees] = _ :=
    markAll_element clean.1 known sole
  rw [inside] at marked
  exact marked

end Static

/-! ## Templates -/

namespace Compile

/-- The tree whose markup is compiled is the source with its directives taken out and its hosts
marked; nothing else differs. -/
theorem static_compileNode (config : Config) (title : String) {d : Document} {id : NodeId}
    {name : String} {attributes : List (String × Value)} {children : List (NodeTree NodeId)}
    {c : CompiledTemplate} (sound : d.Sound)
    (read : d.tree id = .ok (.node id (.element name attributes) children))
    (clean : Each Static.Unmarked (.node id (.element name attributes) children))
    (accepted : ((compileNode config title id).run d).1 = .ok c) :
    ∃ copy t markup, ((compileNode config title id).run d).2.1.tree copy = .ok t ∧
      ((compileNode config title id).run d).2.1.serialize copy = .ok markup ∧
      c.skeleton = .compact (abbreviate markup) ∧
      [t.shape] = Static.ofTree config (.node id (.element name attributes) children) := by
  obtain ⟨plan, w', planned, written, document⟩ :=
    (compileNode_follows (w := { document := d }) config title sound read).of_run accepted
  obtain ⟨n, -, -, stands⟩ := Document.stands_of_treeWithin sound.forest _ id _ read
  have fits := sound.forest.fits_of_stands _ _ stands
  obtain ⟨t, standing, shape⟩ : ∃ t, w'.document.view.Stands none t ∧ t.shape = Plan.mark plan.tree := by
    obtain ⟨standing, shape, -, -⟩ := written.copied
    exact ⟨_, standing, shape⟩
  have copied := Document.tree_of_stands standing (written.sound.forest.nodup_labels t none standing)
  rw [document]
  refine ⟨t.label, t, t.print false, copied, ?_, ?_, ?_⟩
  · rw [Document.serialize, copied]
    rfl
  · rw [written.compiled, Plan.compiled, Plan.emit, ← shape, NodeTree.shape, print_map]
  · rw [shape]
    exact Static.mark_ofRoot fits clean planned

/-- A paragraph with directives in an attribute, in a text, in an element of its own and in a
comment. -/
theorem static_compileNode_paragraph :
    let source : NodeTree NodeId :=
      .node ⟨0⟩ (.element "p" [("title", .string "{{t}}"), ("id", .string "a")]) [
        .node ⟨1⟩ (.text "Hi {{n}}!") [],
        .node ⟨2⟩ (.element "b" []) [.node ⟨3⟩ (.text "{{x}}") []],
        .node ⟨4⟩ (.comment "{{c}}") []]
    let left : NodeTree Unit :=
      .node () (.element "p" [("title", .string ""), ("id", .string "a"), (Marker.host, .string "")]) [
        .node () (.text "Hi ") [],
        .node () (.element "span" [(Marker.host, .string "")]) [],
        .node () (.text "!") [],
        .node () (.element "b" [(Marker.host, .string "")]) [],
        .node () (.comment "{{c}}") []]
    let d := (Document.plant none { name := "page", strict := false } source).2
    let final := ((compileNode {} "page" ⟨0⟩).run d).2.1
    ∃ c copy t markup, ((compileNode {} "page" ⟨0⟩).run d).1 = .ok c ∧ final.tree copy = .ok t ∧
      final.serialize copy = .ok markup ∧ c.skeleton = .compact (abbreviate markup) ∧
      t.shape = left := by
  intro source left d final
  have sound : d.Sound := Document.sound_plant (Document.sound_empty "page" false) (by
    simp [source, Fits, FitAll, NodeTree.data, View.AttributesDistinct, NodeData.attributes,
      NodeData.isContainer])
  have read : d.tree ⟨0⟩ = .ok source := rfl
  have clean : source.Each Static.Unmarked := by
    simp [source, Each, EachAll, Static.Unmarked, hasMarker, NodeData.attributes, Marker.host,
      Marker.block]
  obtain ⟨c, accepted⟩ : ∃ c, ((compileNode {} "page" ⟨0⟩).run d).1 = .ok c :=
    ⟨_, compileNode_accepts {} "page" sound read (by with_unfolding_all rfl)⟩
  obtain ⟨copy, t, markup, written, printed, compiled, shape⟩ :=
    static_compileNode {} "page" sound read clean accepted
  have same : Static.ofTree {} source = [left] := by with_unfolding_all rfl
  rw [same] at shape
  exact ⟨c, copy, t, markup, accepted, written, printed, compiled, List.singleton_inj.1 shape⟩

end Compile

end Stencil
