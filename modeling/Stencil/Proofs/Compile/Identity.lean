import Stencil.Proofs.Block.Fusing
import Stencil.Proofs.Compile.Rereading
import Stencil.Proofs.Markup.Enclosing
import Stencil.Proofs.Markup.Joining

/-! # Templates without directives

A source without directives is compiled to the markup that it is, and whatever context is rendered
into such a template shows this markup again. The markup is printed and read on the way, so that
nothing may be hidden at its beginnings, and no directive or marker may come about when its
character references are read.
-/

namespace Stencil

open Markup NodeTree Compile

/-! ## Nodes without directives -/

/-- A node in which nothing is compiled: no directive stands in a text or in the value of an attribute,
and no attribute is a marker. -/
def Markup.NodeData.Inert : NodeData → Prop
  | .element _ attributes => ∀ entry ∈ attributes,
      entry.1 ≠ Marker.host ∧ entry.1 ≠ Marker.block ∧ Text.Plain entry.2.text
  | .text value => Text.Plain value
  | _ => True

/-- A node without markers. -/
def Markup.NodeData.Markerless (data : NodeData) : Prop :=
  hasMarker Marker.host data.attributes = false ∧ hasMarker Marker.block data.attributes = false

theorem Markup.NodeData.Inert.markerless {data : NodeData} (h : data.Inert) : data.Markerless := by
  rw [Markerless, hasMarker_eq_false, hasMarker_eq_false]
  cases data with
  | element name attributes =>
      constructor
      · intro mem
        obtain ⟨entry, there, same⟩ := List.mem_map.1 mem
        exact (h entry there).1 same
      · intro mem
        obtain ⟨entry, there, same⟩ := List.mem_map.1 mem
        exact (h entry there).2.1 same
  | _ => exact ⟨List.not_mem_nil, List.not_mem_nil⟩

/-! ## Plans -/

namespace Plan

variable {s : Settings} {attributes : List (String × Value)}

theorem ofAttribute_plain {name : String} {value : Value} (plain : Text.Plain value.text) :
    ofAttribute s name value = .ok (value, []) := by
  have none_found : Occurrence.first? (s.source value.text) = .ok none :=
    Occurrence.first?_of_plain plain
  unfold ofAttribute
  split
  · rfl
  · dsimp only
    rw [none_found]
    rfl

theorem ofAttributes_inert (h : ∀ entry ∈ attributes, Text.Plain entry.2.text) :
    ofAttributes s attributes = .ok (attributes, []) := by
  induction attributes with
  | nil => rfl
  | cons entry more ih =>
      obtain ⟨own, others⟩ := List.forall_mem_cons.1 h
      rw [ofAttributes, ofAttribute_plain own, ih others]
      rfl

theorem ofText_plain {value : String} (plain : Text.Plain value) :
    ofText s value = .ok [.node [] (.text value) []] := by
  rw [ofText, Occurrence.all_of_plain plain]
  rfl

theorem blockOf?_inert (h : ∀ entry ∈ attributes, entry.1 ≠ Marker.block) :
    blockOf? attributes = none := by
  rw [blockOf?, Hosts.lookup_eq_none.2, Option.map_none]
  intro mem
  obtain ⟨entry, there, same⟩ := List.mem_map.1 mem
  exact h entry there same

theorem soleBlock?_inert {ts : List (NodeTree NodeId)} (h : EachAll NodeData.Inert ts) :
    soleBlock? ts = none := by
  induction ts with
  | nil => rfl
  | cons t more ih =>
      obtain ⟨id, data, below⟩ := t
      cases data with
      | text value =>
          rw [soleBlock?, ih h.2, ite_self]
      | element name attributes =>
          rw [soleBlock?]
          rw [blockOf?_inert fun entry mem => (h.1.1 entry mem).2.1]
      | comment | fragment | doctype => rfl

theorem soleDirective?_inert {ts : List (NodeTree NodeId)} (h : EachAll NodeData.Inert ts) :
    soleDirective? s ts = .ok none := by
  unfold soleDirective?
  split
  · rename_i value _
    have none_found : Occurrence.first? (s.source value) = .ok none := Occurrence.first?_of_plain h.1.1
    dsimp only
    rw [Occurrence.whole?.eq_1, none_found]
    rfl
  · rfl

theorem ofContent_inert {ts : List (NodeTree NodeId)} {below : Sketch} (h : EachAll NodeData.Inert ts)
    (planned : ofTrees s ts = .ok below) : ofContent s ts (ofTrees s ts) = .ok ([], below) := by
  rw [ofContent, soleDirective?_inert h, planned]
  rfl

/-- A tree without slots. -/
def slotless {ι : Type} (t : NodeTree ι) : NodeTree Slot := t.map fun _ => []

theorem slotless_node {ι : Type} (label : ι) (data : NodeData) (children : List (NodeTree ι)) :
    slotless (.node label data children) = .node [] data (children.map slotless) := by
  rw [slotless, NodeTree.map, mapAll_eq_map]
  rfl

mutual

/-- Of a tree without directives nothing is taken. -/
theorem ofTree_inert : (t : NodeTree NodeId) → t.data ≠ .fragment → t.Fits → t.Each NodeData.Inert →
    ofTree s t = .ok ⟨[slotless t], []⟩
  | .node id data children, solid, fits, h => by
      have leaf (other : data.isContainer = false) : children = [] := by
        refine Classical.byContradiction fun filled => ?_
        rw [fits.2.1 filled] at other
        cases other
      cases data with
      | text value =>
          obtain rfl := leaf rfl
          rw [ofTree, ofText_plain h.1]
          rfl
      | element name attributes =>
          have below := ofTrees_inert children fits.2.2 h.2
          rw [ofTree, ofAttributes_inert fun entry mem => (h.1 entry mem).2.2]
          dsimp only [bind, Except.bind]
          rw [blockOf?_inert fun entry mem => (h.1 entry mem).2.1, soleBlock?_inert h.2]
          dsimp only
          rw [ofContent_inert h.2 below]
          rw [slotless_node]
          rfl
      | comment | doctype =>
          obtain rfl := leaf rfl
          rfl
      | fragment => exact (solid rfl).elim

theorem ofTrees_inert : (ts : List (NodeTree NodeId)) → FitAll ts → EachAll NodeData.Inert ts →
    ofTrees s ts = .ok ⟨ts.map slotless, []⟩
  | [], _, _ => rfl
  | t :: ts, fits, h => by
      rw [ofTrees, ofTree_inert t fits.1.1 fits.1.2 h.1, ofTrees_inert ts fits.2 h.2]
      rfl

end

/-- The plan of a tree without directives is the tree. -/
theorem ofRoot_inert {name : String} {children : List (NodeTree NodeId)}
    (own : (NodeData.element name attributes).Inert) (fits : FitAll children)
    (h : EachAll NodeData.Inert children) :
    ofRoot s name attributes children =
      .ok (.plan (.node [] (.element name attributes) (children.map slotless)) none []) := by
  rw [ofRoot, ofAttributes_inert fun entry mem => (own entry mem).2.2]
  dsimp only [bind, Except.bind]
  rw [ofContent_inert h (ofTrees_inert children fits h)]
  rfl

mutual

theorem mark_slotless {ι : Type} : (t : NodeTree ι) → mark (slotless t) = t.shape
  | .node label data children => by
      rw [slotless_node, mark, markAll_slotless children, shape_node]
      rfl

theorem markAll_slotless {ι : Type} : (ts : List (NodeTree ι)) → markAll (ts.map slotless) = ts.map shape
  | [] => rfl
  | t :: ts => by rw [List.map_cons, markAll, mark_slotless t, markAll_slotless ts, List.map_cons]

end

mutual

theorem hosts_slotless {ι : Type} : (t : NodeTree ι) → hosts (slotless t) = []
  | .node label data children => by
      rw [slotless_node, hosts, hostsAll_slotless children]
      rfl

theorem hostsAll_slotless {ι : Type} : (ts : List (NodeTree ι)) → hostsAll (ts.map slotless) = []
  | [] => rfl
  | t :: ts => by rw [List.map_cons, hostsAll, hosts_slotless t, hostsAll_slotless ts, List.append_nil]

end

/-- A tree without slots is written as it is, if no marker is to be abbreviated in it. -/
theorem compiled_slotless {ι : Type} {t : NodeTree ι} (unmarked : ¬valuedMarker <:+: (t.print false).toList) :
    (Plan.plan (slotless t) none []).compiled = ⟨[], .compact (t.print false), none⟩ := by
  have short : abbreviate (t.print false) = t.print false := by
    rw [← String.toList_inj, toList_abbreviate, shorten_of_absent unmarked]
  have same : t.shape.print false = t.print false := print_eq_of_shape (shape_eq_self _) false
  rw [compiled, emit, tree, expression, hosts_slotless, mark_slotless, same, short]
  rfl

end Plan

/-! ## Printed markup -/

/-- The braces at which a directive begins. -/
def braces : List Char := ['\x7b', '\x7b']

theorem Text.prefix_append_cons {c : Char} {part front back : List Char} (out : c ∉ part)
    (begins : part <+: front ++ c :: back) : part <+: front := by
  by_cases size : part.length ≤ front.length
  · exact List.prefix_of_prefix_length_le begins (List.prefix_append front _) size
  · have whole : front ++ [c] <+: front ++ c :: back := ⟨back, by simp⟩
    have within : front ++ [c] <+: part := by
      refine List.prefix_of_prefix_length_le whole begins ?_
      rw [List.length_append, List.length_singleton]
      omega
    exact (out (within.subset (by simp))).elim

/-- What holds no `c` is found on one side of it. -/
theorem Text.infix_append_cons {c : Char} {part front back : List Char} (out : c ∉ part)
    (inside : part <:+: front ++ c :: back) : part <:+: front ∨ part <:+: back := by
  induction front with
  | nil =>
      rcases List.infix_cons_iff.1 inside with begins | later
      · exact .inl (prefix_append_cons out (show part <+: [] ++ c :: back from begins)).isInfix
      · exact .inr later
  | cons d front ih =>
      rcases List.infix_cons_iff.1 inside with begins | later
      · exact .inl (prefix_append_cons out (show part <+: d :: front ++ c :: back from begins)).isInfix
      · exact (ih later).imp_left fun found => found.trans (List.suffix_cons d front).isInfix

theorem Text.plain_of_absent {value : String} (out : ¬braces <:+: value.toList) : Plain value := by
  refine (find?_eq_none_iff Mustache.reads_at?).2 fun front back same => ?_
  unfold Mustache.at?
  split
  · rename_i inner
    exact (out ⟨front, inner, by rw [same]; simp [braces]⟩).elim
  · rfl

/-- Without braces there is no tag of a block. -/
theorem Fragment.blockify_of_absent {source : Source} (out : ¬braces <:+: source.text.toList)
    (alternate : Bool) : blockify source alternate = .ok source.text := by
  obtain ⟨name, text⟩ := source
  refine blockify_of_misses (fun front back same => Classical.byContradiction fun there => ?_) alternate
  obtain ⟨sigil, inner, rfl⟩ := BlockTag.at?_ne_none there
  exact out ⟨front, sigil :: inner, by rw [same]; simp [braces]⟩

namespace Markup

/-- Characters that need no reference are printed as they are. -/
theorem infix_flatMap {f : Char → List Char} {part text : List Char} (kept : ∀ c ∈ part, f c = [c])
    (inside : part <:+: text) : part <:+: text.flatMap f := by
  obtain ⟨front, back, rfl⟩ := inside
  have same : part.flatMap f = part := (List.flatMap_congr kept).trans (List.flatMap_singleton' part)
  exact ⟨front.flatMap f, back.flatMap f, by simp [same]⟩

theorem infix_printOpenTag (name : String) {attributes : List (String × Value)} {entry : String × Value}
    (mem : entry ∈ attributes) :
    entry.1.toList <:+: (printOpenTag name attributes).toList ∧
      entry.2.text.toList.flatMap escapedAttributeChar <:+: (printOpenTag name attributes).toList := by
  have written : writtenAttribute quoted (entry.1, entry.2.text) <:+:
      (printOpenTag name attributes).toList := by
    obtain ⟨front, back, rfl⟩ := List.append_of_mem mem
    rw [toList_printOpenTag]
    refine ⟨'<' :: (name.toList ++ ((front.map fun entry => (entry.1, entry.2.text)).flatMap
      (writtenAttribute quoted))), (back.map fun entry => (entry.1, entry.2.text)).flatMap
        (writtenAttribute quoted) ++ ['>'], ?_⟩
    simp [writtenOpening]
  refine ⟨List.IsInfix.trans ⟨[' '], quoted (entry.1, entry.2.text), ?_⟩ written,
    List.IsInfix.trans ⟨' ' :: (entry.1.toList ++ ['=', '"']), ['"'], ?_⟩ written⟩
  · simp [writtenAttribute]
  · simp [writtenAttribute, quoted]

namespace NodeTree

variable {ι : Type}

/-- What is printed of an element holds its open tag and what is printed of its children. -/
theorem infix_print_element (label : ι) {name : String} (attributes : List (String × Value))
    {children : List (NodeTree ι)} (raw : Bool)
    (void : (TagRules.of name).isVoid = true → children = []) :
    (printOpenTag name attributes).toList <:+:
        ((node label (.element name attributes) children).print raw).toList ∧
      (printAll (NodeData.element name attributes).isRaw children).toList <:+:
        ((node label (.element name attributes) children).print raw).toList := by
  rw [print]
  split
  · rename_i empty
    rw [void empty]
    exact ⟨List.infix_rfl, List.nil_infix⟩
  · simp only [String.toList_append, List.append_assoc]
    exact ⟨(List.prefix_append _ _).isInfix, List.infix_append' _ _ _⟩

mutual

/-- Nothing is compiled in a tree whose markup holds neither the braces of a directive nor the name of
a marker. -/
theorem inert_of_print (raw : Bool) : (t : NodeTree ι) → t.Parsed → ¬braces <:+: (t.print raw).toList →
    ¬Marker.host.toList <:+: (t.print raw).toList → t.Each NodeData.Inert
  | .node label data children, parsed, undirected, unmarked => by
      cases data with
      | text value =>
          obtain ⟨-, rfl⟩ := parsed
          refine ⟨Text.plain_of_absent fun inside => undirected ?_, trivial⟩
          cases raw with
          | true => exact inside
          | false =>
              rw [print, if_neg nofun, escapeText, String.toList_ofList]
              exact infix_flatMap (List.forall_mem_cons.2 ⟨rfl, List.forall_mem_singleton.2 rfl⟩) inside
      | element name attributes =>
          obtain ⟨tag, content⟩ := infix_print_element label attributes raw parsed.1.void
          refine ⟨fun entry mem => ?_, inertAll_of_print _ children parsed.2
            (fun inside => undirected (inside.trans content)) fun inside => unmarked (inside.trans content)⟩
          obtain ⟨named, worded⟩ := infix_printOpenTag name mem
          have absent {marker : String} (holds : Marker.host.toList <:+: marker.toList) :
              entry.1 ≠ marker := fun same =>
            unmarked (holds.trans (same ▸ named.trans tag))
          refine ⟨absent List.infix_rfl, absent (List.prefix_append "data-poirot".toList "-block".toList).isInfix,
            Text.plain_of_absent fun inside => undirected ?_⟩
          have kept : ∀ c ∈ braces, escapedAttributeChar c = [c] :=
            List.forall_mem_cons.2 ⟨rfl, List.forall_mem_singleton.2 rfl⟩
          exact (infix_flatMap kept inside).trans (worded.trans tag)
      | comment value =>
          obtain ⟨-, rfl⟩ := parsed
          exact ⟨trivial, trivial⟩
      | doctype value =>
          obtain ⟨-, rfl⟩ := parsed
          exact ⟨trivial, trivial⟩
      | fragment => exact parsed.elim

theorem inertAll_of_print (raw : Bool) : (ts : List (NodeTree ι)) → ParsedAll ts →
    ¬braces <:+: (printAll raw ts).toList → ¬Marker.host.toList <:+: (printAll raw ts).toList →
    EachAll NodeData.Inert ts
  | [], _, _, _ => trivial
  | t :: ts, parsed, undirected, unmarked => by
      rw [printAll, String.toList_append] at undirected unmarked
      exact ⟨inert_of_print raw t parsed.1
          (fun inside => undirected (inside.trans (List.prefix_append _ _).isInfix))
          fun inside => unmarked (inside.trans (List.prefix_append _ _).isInfix),
        inertAll_of_print raw ts parsed.2
          (fun inside => undirected (inside.trans (List.suffix_append _ _).isInfix))
          fun inside => unmarked (inside.trans (List.suffix_append _ _).isInfix)⟩

end

/-! ## Trees without markers -/

theorem markerlessAll_attach {t : NodeTree ι} {ts : List (NodeTree ι)} (h : t.Each NodeData.Markerless)
    (all : EachAll NodeData.Markerless ts) : EachAll NodeData.Markerless (attach t ts) := by
  unfold attach
  split
  · exact ⟨⟨⟨rfl, rfl⟩, h.2⟩, all.2⟩
  · exact ⟨h, all⟩

mutual

theorem markerless_join : (t : NodeTree ι) → t.Each NodeData.Inert → t.join.Each NodeData.Markerless
  | node label data children, h => by
      rw [join]
      exact ⟨h.1.markerless, markerlessAll_joinAll children h.2⟩

theorem markerlessAll_joinAll : (ts : List (NodeTree ι)) → EachAll NodeData.Inert ts →
    EachAll NodeData.Markerless (joinAll ts)
  | [], _ => trivial
  | t :: ts, h => by
      rw [joinAll]
      exact markerlessAll_attach (markerless_join t h.1) (markerlessAll_joinAll ts h.2)

end

mutual

theorem hostTrees_markerless : (t : NodeTree ι) → t.Each NodeData.Markerless → hostTrees t = []
  | node label data children, h => by
      cases data with
      | element name attributes =>
          have own : hasMarker Marker.host attributes = false := h.1.1
          rw [hostTrees, own, hostTreesAmong_markerless children h.2]
          rfl
      | text | comment | fragment | doctype => rfl

theorem hostTreesAmong_markerless : (ts : List (NodeTree ι)) → EachAll NodeData.Markerless ts →
    hostTreesAmong ts = []
  | [], _ => rfl
  | t :: ts, h => by
      rw [hostTreesAmong, hostTrees_markerless t h.1, hostTreesAmong_markerless ts h.2, List.append_nil]

end

mutual

theorem blockless_markerless : (t : NodeTree ι) → t.Each NodeData.Markerless → blockless t = true
  | node label data children, h => by
      rw [blockless, h.1.2, blocklessAll_markerless children h.2]
      rfl

theorem blocklessAll_markerless : (ts : List (NodeTree ι)) → EachAll NodeData.Markerless ts →
    blocklessAll ts = true
  | [], _ => rfl
  | t :: ts, h => by
      rw [blocklessAll, blockless_markerless t h.1, blocklessAll_markerless ts h.2]
      rfl

end

mutual

/-- Where there is no host nothing is filled. -/
theorem fill_markerless (keep : Bool) (fs : List Filling) : (t : NodeTree Unit) →
    t.Each NodeData.Markerless → Filling.fill keep t fs = (t, fs)
  | node _ data children, h => by
      cases data with
      | element name attributes =>
          have own : hasMarker Marker.host attributes = false := h.1.1
          have below := fillAll_markerless keep fs children h.2
          simp only [Filling.fill, own, below]
          rfl
      | text | comment | fragment | doctype => rfl

theorem fillAll_markerless (keep : Bool) (fs : List Filling) : (ts : List (NodeTree Unit)) →
    EachAll NodeData.Markerless ts → Filling.fillAll keep ts fs = (ts, fs)
  | [], _ => rfl
  | t :: ts, h => by
      simp only [Filling.fillAll, fill_markerless keep fs t h.1, fillAll_markerless keep fs ts h.2]

end

end NodeTree

end Markup

namespace CompiledTemplate

variable {markup : String} {t : NodeTree Unit} (root : treeOf? markup = some t)
  (markerless : t.Each NodeData.Markerless)

include root markerless

/-- Markup without markers is a template without slots, -/
theorem shaped_markerless : Shaped ⟨[], .compact markup, none⟩ := by
  rw [Shaped, Skeleton.markup_compact]
  refine ⟨⟨t, root, ?_, ?_⟩, trivial⟩
  · have all := blockless_markerless t markerless
    obtain ⟨label, data, children⟩ := t
    exact (Bool.and_eq_true_iff.1 all).2
  · rw [hostTrees_markerless t markerless]
    exact .nil

/-- and it is its own expansion, whatever names mean. -/
theorem expand_markerless (keep : Bool) (m : Meaning) :
    expand keep m ⟨[], .compact markup, none⟩ = t := by
  rw [expand, Skeleton.markup_compact, root]
  exact congrArg Prod.fst (fill_markerless keep _ t markerless)

end CompiledTemplate

namespace Compile

/-- The root element of a template that is no full document, around what has been read. -/
def rootTree (ts : List (NodeTree Unit)) : NodeTree Unit :=
  .node () (.element "div" [("class", .string "poirot-rendered")]) ts

theorem rootMarkup_eq {markup : String} (partly : isFullDocument markup.toList = false) :
    rootMarkup {} markup =
      printOpenTag "div" [("class", .string "poirot-rendered")] ++ markup ++ "</" ++ "div" ++ ">" := by
  have opening : "<" ++ ({} : Config).rootTag ++ " class=\"" ++ ({} : Config).rootClass ++ "\">" =
      printOpenTag "div" [("class", .string "poirot-rendered")] := by decide
  rw [rootMarkup, partly, ← opening]
  rfl

theorem parse_rootMarkup {markup : String} (partly : isFullDocument markup.toList = false)
    (clean : (parse markup).2 = []) :
    parse (rootMarkup {} markup) = ([rootTree (parse markup).1], []) := by
  rw [rootMarkup_eq partly]
  exact parse_enclosed (.of_all rfl (c := 'd') rfl rfl) (by decide)
    (List.forall_mem_singleton.2 (.of_all rfl (c := 'c') rfl rfl)) clean (by decide)
    (List.forall_mem_singleton.2 ⟨_, rfl⟩)

theorem print_rootTree (ts : List (NodeTree Unit)) :
    (rootTree ts).print false = printOpenTag "div" [("class", .string "poirot-rendered")] ++
      printAll false ts ++ "</" ++ "div" ++ ">" := by
  have void : (TagRules.of "div").isVoid = false := by decide
  have raw : (NodeData.element "div" [("class", .string "poirot-rendered")]).isRaw = false := by decide
  rw [rootTree, print, void, raw]
  rfl

theorem inner_of_shape {ι : Type} {t : NodeTree ι} {ts : List (NodeTree Unit)}
    (shape : t.shape = (rootTree ts).join) : t.inner = printAll false ts := by
  obtain ⟨label, data, children⟩ := t
  rw [shape_node, rootTree, join] at shape
  obtain ⟨-, rfl, below⟩ := NodeTree.node.inj shape
  have raw : (NodeData.element "div" [("class", .string "poirot-rendered")]).isRaw = false := by decide
  rw [NodeTree.inner, ← printAll_joinAll false ts]
  dsimp only [NodeTree.data, NodeTree.children]
  rw [raw]
  exact printAll_eq_of_shape (below.trans (map_shape_eq_self _).symm) false

theorem inert_root : (NodeData.element "div" [("class", .string "poirot-rendered")]).Inert :=
  List.forall_mem_singleton.2 ⟨by decide, by decide, Text.plain_of_absent (by decide)⟩

/-- The root adds nothing that would be abbreviated. -/
theorem not_infix_rootTree {ts : List (NodeTree Unit)}
    (unmarked : ¬Marker.host.toList <:+: (printAll false ts).toList) :
    ¬valuedMarker <:+: ((rootTree ts).print false).toList := by
  have text : ((rootTree ts).print false).toList =
      "<div class=\"poirot-rendered\"".toList ++
        '>' :: ((printAll false ts).toList ++ '<' :: "/div>".toList) := by
    have opening : (printOpenTag "div" [("class", .string "poirot-rendered")]).toList =
        "<div class=\"poirot-rendered\"".toList ++ ['>'] := by decide
    simp [print_rootTree, opening]
  have host : Marker.host.toList <:+: valuedMarker := ⟨[], ['=', '"', '"'], valuedMarker_eq.symm⟩
  rw [text]
  intro inside
  rcases Text.infix_append_cons (by decide) inside with front | inside
  · exact absurd front (by decide)
  · rcases Text.infix_append_cons (by decide) inside with content | back
    · exact unmarked (host.trans content)
    · exact absurd back (by decide)

/-- What has been compiled without directives is read again with its texts joined. -/
theorem treeOf?_rootTree {ts : List (NodeTree Unit)} (parsed : ParsedAll [rootTree ts])
    (plain : ∀ t ∈ ts, ∀ q s, Within none t q s → s.Plain) :
    CompiledTemplate.treeOf? ((rootTree ts).print false) = some (rootTree ts).join := by
  have rules : (TagRules.of "div").skipsNewline = false := by decide
  have all : ∀ t ∈ [rootTree ts], ∀ q s, Within none t q s → s.Plain := by
    rintro _ mem q s inside
    obtain rfl := List.mem_singleton.1 mem
    rcases inside.top_or_below with ⟨-, rfl⟩ | ⟨t, there, below⟩
    · intro skips
      rw [rules] at skips
      cases skips
    · obtain ⟨r, alone⟩ := below.reparent none
      exact plain t there r s alone
  have read := parse_printAll_join parsed all
  rw [printAll, printAll, String.append_empty, map_shape_eq_self] at read
  rw [CompiledTemplate.treeOf?, read]
  rfl

/-- A tree without directives is compiled to its own markup. -/
theorem compileNode_inert (config : Config) (title : String) {d : Document} {t : NodeTree NodeId}
    (sound : d.Sound) (read : d.tree t.label = .ok t) (element : t.data.isElement = true)
    (inert : t.Each NodeData.Inert) (unmarked : ¬valuedMarker <:+: (t.print false).toList) :
    ((compileNode config title t.label).run d).1 = .ok ⟨[], .compact (t.print false), none⟩ := by
  obtain ⟨n, -, -, stands⟩ := Document.stands_of_treeWithin sound.forest _ t.label _ read
  have fits := sound.forest.fits_of_stands _ _ stands
  rw [← Plan.compiled_slotless unmarked]
  obtain ⟨id, data, children⟩ := t
  cases data with
  | element name attributes =>
      rw [Plan.slotless_node]
      exact compileNode_accepts config title sound read (Plan.ofRoot_inert inert.1 fits.2.2 inert.2)
  | _ => cases element

/-- A source whose markup is accepted is compiled from the first element of it. -/
theorem run_compileSource {config : Config} {source : Source} {d : Document} (sound : d.Sound)
    {markup : String} (blocks : Fragment.blockify source config.alternateBlockOpen = .ok markup)
    (clean : d.strict = false ∨ (parse (rootMarkup config markup)).2 = []) {t : NodeTree Unit}
    (root : CompiledTemplate.treeOf? (rootMarkup config markup) = some t) :
    ∃ u d', u.shape = t ∧ d'.Sound ∧ d'.tree u.label = .ok u ∧
      (compileSource config source).run d = (compileNode config source.name u.label).run d' := by
  obtain ⟨f, us, top, planted, -, -⟩ := planted_markup sound.accounted (rootMarkup config markup)
  obtain ⟨fragment, d', parsed⟩ : ∃ fragment d',
      Document.parseMarkup (rootMarkup config markup) d = .ok fragment d' :=
    ⟨_, _, Document.parseMarkup_clean sound.accounted _ clean planted.trades.strict⟩
  obtain ⟨sound', ⟨none_there, -⟩ | ⟨u, tree, -, first, read⟩⟩ := root_parseMarkup sound parsed
  · rw [root] at none_there
    cases none_there
  · refine ⟨u, d', Option.some.inj (tree.symm.trans root), sound', read, ?_⟩
    have ran : compileSource config source { document := d } =
        compileNode config source.name u.label { document := d' } := by
      unfold compileSource
      rw [blocks, bind_ok (show lift (.ok markup) _ = .ok markup _ from rfl), bind_ok (edit_ok parsed),
        bind_ok (ask_ok first)]
    rw [Compile.run, Compile.run, ran]

/-- A source without directives gives back its own markup. Whatever context is rendered, the root of the
template shows what the source shows that is parsed and printed. -/
theorem inner_compileSource {source : Source} (undirected : ¬braces <:+: source.text.toList)
    (partly : isFullDocument source.text.toList = false) (clean : (parse source.text).2 = [])
    (plain : ∀ t ∈ (parse source.text).1, ∀ q s, Within none t q s → s.Plain)
    (still : ¬braces <:+: (printAll false (parse source.text).1).toList)
    (unmarked : ¬Marker.host.toList <:+: (printAll false (parse source.text).1).toList)
    {d : Document} (sound : d.Sound) (lenient : d.strict = false) {env : Environment}
    (standard : env.handlers = .standard) (context : Value) :
    ∃ c template d₁ d₂ events,
      ((compileSource {} source).run d).1 = .ok c ∧
        Template.ofCompiled env c ((compileSource {} source).run d).2.1 = .ok template d₁ ∧
        Rendering.run (template.render context) d₁ = (.ok template.live.root, d₂, events) ∧
        d₂.inner template.live.root = .ok (printAll false (parse source.text).1) := by
  generalize read : (parse source.text).1 = ts at plain still unmarked
  have wrapped := parse_rootMarkup partly clean
  rw [read] at wrapped
  have blocks : Fragment.blockify source ({} : Config).alternateBlockOpen = .ok source.text :=
    Fragment.blockify_of_absent undirected _
  have root : CompiledTemplate.treeOf? (rootMarkup {} source.text) = some (rootTree ts) := by
    rw [CompiledTemplate.treeOf?, wrapped]
    rfl
  have parsed : ParsedAll [rootTree ts] := by
    have parsed := parsedAll_parse (rootMarkup {} source.text)
    rwa [wrapped] at parsed
  have inert : (rootTree ts).Each NodeData.Inert :=
    ⟨inert_root, inertAll_of_print false ts parsed.1.2 still unmarked⟩
  obtain ⟨u, d', shape, sound', tree, ran⟩ := run_compileSource sound blocks (.inl lenient) root
  have same : u.print false = (rootTree ts).print false :=
    print_eq_of_shape (shape.trans (shape_eq_self _).symm) false
  have element : u.data.isElement = true := by
    rw [← data_shape, shape]
    rfl
  have accepted : ((compileSource {} source).run d).1 =
      .ok ⟨[], .compact ((rootTree ts).print false), none⟩ := by
    rw [ran, ← same]
    exact compileNode_inert {} source.name sound' tree element (each_shape u (shape ▸ inert))
      (same ▸ not_infix_rootTree unmarked)
  have ready : Document.Ready ((compileSource {} source).run d).2.1 :=
    (keeps_compileSource Document.lasting_ready {} source).run ⟨sound.accounted, lenient⟩
  have again := treeOf?_rootTree parsed plain
  have markerless := markerless_join _ inert
  obtain ⟨template, d₁, d₂, events, T, built, rendered, shown, expanded⟩ :=
    Template.render_of_ready standard (CompiledTemplate.shaped_markerless again markerless) context ready
  rw [CompiledTemplate.expand_markerless again markerless] at expanded
  refine ⟨_, template, d₁, d₂, events, accepted, built, rendered, ?_⟩
  rw [Document.inner, shown]
  exact congrArg Except.ok (inner_of_shape expanded)

/-- A text with a reference, and a line break behind it. -/
theorem inner_compileSource_reference (context : Value) :
    let run := (compileSource {} ⟨"page", "Salt &amp; pepper<br>"⟩).run { name := "page", strict := false }
    ∃ c template d₁ d₂ events, run.1 = .ok c ∧ Template.ofCompiled {} c run.2.1 = .ok template d₁ ∧
      Rendering.run (template.render context) d₁ = (.ok template.live.root, d₂, events) ∧
      d₂.inner template.live.root = .ok "Salt &amp; pepper<br>" := by
  let ts : List (NodeTree Unit) := [.node () (.text "Salt & pepper") [], .node () (.element "br" []) []]
  have parted : Parted ts := .cons_cons nofun (.singleton _)
  have printable : PrintableAll ts :=
    ⟨⟨by decide, rfl⟩, ⟨.childless (.of_all rfl (c := 'b') rfl rfl) List.nodup_nil nofun nofun, trivial⟩,
      trivial⟩
  have text : printAll false ts = "Salt &amp; pepper<br>" := by decide +kernel
  have read : parse "Salt &amp; pepper<br>" = (ts, []) := by
    rw [← text, parse_printAll parted printable, map_shape_eq_self]
  have plain : ∀ t ∈ ts, ∀ q s, Within none t q s → s.Plain := by
    have leaf {data : NodeData} (own : (NodeTree.node () data []).Plain) :
        ∀ q s, Within none (.node () data []) q s → s.Plain := by
      intro q s inside
      rcases inside.top_or_below with ⟨-, rfl⟩ | ⟨c, listed, -⟩
      · exact own
      · cases listed
    exact List.forall_mem_cons.2 ⟨leaf trivial, List.forall_mem_singleton.2 (leaf nofun)⟩
  have undirected : ¬braces <:+: (Source.mk "page" "Salt &amp; pepper<br>").text.toList := by decide
  have shown := inner_compileSource undirected (by decide) (by rw [read]) (by rwa [read])
    (by rw [read, text]; decide) (by rw [read, text]; decide)
    (Document.sound_empty "page" false) rfl (show ({} : Environment).handlers = .standard from rfl) context
  rwa [read, text] at shown

end Compile

end Stencil
