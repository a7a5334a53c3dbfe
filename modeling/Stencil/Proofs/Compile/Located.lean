import Stencil.Proofs.Block.Splitting
import Stencil.Proofs.Compile.Template
import Stencil.Proofs.Directive.Scanning
import Stencil.Proofs.Markup.Listing
import Stencil.Proofs.Render.Building

/-! # Where templates are refused

A template is refused for a block tag or for a directive. The tag is found in the template. The
directive is found in a text or in the value of an attribute of the parsed markup, and its span
counts from the beginning of that text.
-/

namespace Stencil

open Markup NodeTree Compile

namespace Fragment

/-- A source that is refused for its blocks is refused at one of its tags. -/
theorem blockify_refused {source : Source} {alternate : Bool} {e : SyntaxError}
    (refused : blockify source alternate = .error e) :
    ∃ front before tag back, pieces source = front ++ (before, tag) :: back ∧
      e.span.Covers source (Pieces.joined front ++ before) tag.text := by
  have reader : BlockTag.pattern.first? = BlockTag.at? := funext BlockTag.pattern_first?
  have form : blockify source alternate =
      (((pieces source).foldlM (Nesting.step source alternate) Nesting.start).bind
        (Nesting.finish source (trailing source))).map fuseAll := by
    rw [pieces, trailing, reader]
    rfl
  have inside : Pieces.joined ([] ++ pieces source) <+: source.text.toList :=
    ⟨trailing source, joined_pieces source⟩
  have run := Nesting.foldlM_reached (Nesting.reached_start alternate) inside
  rw [form] at refused
  cases ran : (pieces source).foldlM (Nesting.step source alternate) Nesting.start with
  | error x =>
      rw [ran] at run refused
      cases refused
      obtain ⟨front, before, tag, back, whole, -, -, covers⟩ := run
      exact ⟨front, before, tag, back, whole, covers⟩
  | ok n =>
      rw [ran] at run refused
      have finished := finish_spec run
      cases end_ : n.finish source (trailing source) with
      | ok fragments =>
          rw [Except.bind, end_] at refused
          cases refused
      | error x =>
          rw [Except.bind, end_] at refused
          rw [end_] at finished
          cases refused
          obtain ⟨-, front, before, tag, back, whole, -, -, -, covers⟩ := finished
          exact ⟨front, before, tag, back, whole, covers⟩

end Fragment

/-! ## Directives of one text -/

namespace Occurrence

variable {source : Source} {o : Occurrence} {e : SyntaxError}

/-- An error stands on a directive of a source. -/
def Faults (source : Source) (e : SyntaxError) : Prop :=
  ∃ o ∈ sequence source, e.span = o.span source

theorem place_mem_sequence {found : Text.Found Mustache}
    (there : Text.find? Mustache.at? source.text.toList = some found) :
    place 0 found.before found.thing ∈ sequence source := by
  have shorter := Text.find?_after_length_lt Mustache.reads_at? there
  rw [sequence, Text.tiles, there]
  simp [shorter, placeAll]

theorem mem_sequence_of_first? (h : first? source = .ok (some o)) : o ∈ sequence source := by
  obtain ⟨found, there, rfl, -⟩ := first?_eq_ok_some h
  exact place_mem_sequence there

theorem mem_sequence_of_whole? (h : whole? source = .ok (some o)) : o ∈ sequence source := by
  obtain ⟨m, there, rfl, -⟩ := find?_of_whole h
  exact place_mem_sequence there

theorem faults_of_first? (h : first? source = .error e) : Faults source e := by
  unfold first? at h
  split at h
  · cases h
  · rename_i found there
    unfold check at h
    split at h <;> cases h
    exact ⟨_, place_mem_sequence there, rfl⟩

theorem faults_of_whole? (h : whole? source = .error e) : Faults source e := by
  unfold whole? at h
  cases first : first? source with
  | ok found =>
      rw [first] at h
      cases h
  | error x =>
      rw [first] at h
      cases h
      exact faults_of_first? first

theorem faults_of_all (h : all source = .error e) : Faults source e := by
  have run := @mapM_check source (sequence source)
  rw [show (sequence source).mapM (check source) = .error e from h] at run
  obtain ⟨before, o, after, split_, -, -, same⟩ := run
  exact ⟨o, by simp [split_], same⟩

theorem Faults.covers (h : Faults source e) :
    ∃ o ∈ sequence source, ∃ front, e.span.Covers source front o.whole.toList := by
  obtain ⟨o, mem, same⟩ := h
  obtain ⟨before, after, split_⟩ := List.append_of_mem mem
  rw [same]
  exact ⟨o, mem, _, (scan_sequence source).covers before o after split_⟩

end Occurrence

open Occurrence

/-! ## Texts of a tree -/

/-- The texts of a node in which directives are looked for. -/
def Markup.NodeData.texts : NodeData → List String
  | .text value => [value]
  | .element _ attributes => attributes.map fun entry => entry.2.text
  | _ => []

/-- An error stands on a directive of a text among some nodes. -/
def FaultsAmong (name : String) (nodes : List Entry) (e : SyntaxError) : Prop :=
  ∃ entry ∈ nodes, ∃ text ∈ entry.1.texts, Faults { name, text } e

theorem FaultsAmong.mono {name : String} {nodes more : List Entry} {e : SyntaxError}
    (h : FaultsAmong name nodes e) (sub : nodes ⊆ more) : FaultsAmong name more e := by
  obtain ⟨entry, mem, inside⟩ := h
  exact ⟨entry, sub mem, inside⟩

theorem FaultsAmong.of_attributes {name tag : String} {attributes : List (String × Value)}
    {leaf : Bool} {below : List Entry}
    (h : ∃ entry ∈ attributes, Faults { name, text := entry.2.text } e) :
    FaultsAmong name ((.element tag attributes, leaf) :: below) e := by
  obtain ⟨entry, mem, faults⟩ := h
  exact ⟨_, List.mem_cons_self, entry.2.text, List.mem_map_of_mem mem, faults⟩

theorem of_bind_eq_error {ε α β : Type} {x : Except ε α} {f : α → Except ε β} {e : ε}
    (h : (x >>= f) = .error e) : x = .error e ∨ ∃ a, x = .ok a ∧ f a = .error e := by
  cases x with
  | error other =>
      cases h
      exact .inl rfl
  | ok a => exact .inr ⟨a, rfl, h⟩

/-- What is made of a result is not what is refused. -/
theorem of_map_eq_error {ε α β : Type} {x : Except ε α} {f : α → β} {e : ε}
    (h : (x >>= fun a => pure (f a)) = .error e) : x = .error e := by
  cases x with
  | error other =>
      cases h
      rfl
  | ok a => cases h

namespace Plan

variable {s : Settings} {e : SyntaxError}

theorem faults_of_binding {source : Source} {o : Occurrence} {attr : Option String}
    (mem : o ∈ Occurrence.sequence source) (h : binding source o attr = .error e) : Faults source e := by
  unfold binding Occurrence.directive at h
  cases classified : o.classify with
  | ok directive =>
      rw [classified] at h
      cases h
  | error fault =>
      rw [classified] at h
      cases h
      exact ⟨o, mem, rfl⟩

theorem faults_of_attribute {name : String} {value : Value}
    (h : ofAttribute s name value = .error e) : Faults (s.source value.text) e := by
  unfold ofAttribute at h
  split at h
  · cases h
  · rcases of_bind_eq_error h with h | ⟨first, found, h⟩
    · exact faults_of_first? h
    · cases first with
      | none => cases h
      | some o =>
          exact faults_of_binding (mem_sequence_of_first? found) (of_map_eq_error h)

theorem faults_of_attributes (attributes : List (String × Value))
    (h : ofAttributes s attributes = .error e) :
    ∃ entry ∈ attributes, Faults (s.source entry.2.text) e := by
  induction attributes with
  | nil => cases h
  | cons entry more ih =>
      rcases of_bind_eq_error h with h | ⟨_, -, h⟩
      · exact ⟨entry, List.mem_cons_self, faults_of_attribute h⟩
      · rcases of_bind_eq_error h with h | ⟨_, -, h⟩
        · obtain ⟨other, mem, faults⟩ := ih h
          exact ⟨other, List.mem_cons_of_mem entry mem, faults⟩
        · cases h

theorem faults_of_occurrences {source : Source} (found : List Occurrence)
    (sub : found ⊆ Occurrence.sequence source) (h : ofOccurrences s source found = .error e) :
    Faults source e := by
  induction found with
  | nil => cases h
  | cons o more ih =>
      rw [List.cons_subset] at sub
      rcases of_bind_eq_error h with h | ⟨_, -, h⟩
      · exact faults_of_binding sub.1 (of_map_eq_error h)
      · exact ih sub.2 (of_map_eq_error h)

theorem faults_of_text {value : String} (h : ofText s value = .error e) :
    Faults (s.source value) e := by
  rcases of_bind_eq_error h with h | ⟨found, all, h⟩
  · exact faults_of_all h
  · obtain rfl : found = Occurrence.sequence (s.source value) := all_eq_ok all
    split at h
    · cases h
    · exact faults_of_occurrences _ (List.Subset.refl _) (of_map_eq_error h)

/-- What an element holds is refused for its only text, or for what becomes of its children. -/
theorem faults_of_content {children : List (NodeTree NodeId)} {below : Except SyntaxError Sketch}
    (inside : below = .error e → FaultsAmong s.name (entriesAll children) e)
    (h : ofContent s children below = .error e) : FaultsAmong s.name (entriesAll children) e := by
  have sole_text {value : String} (faults : Faults (s.source value) e) {label : NodeId}
      {more : List (NodeTree NodeId)} (alone : children = [.node label (.text value) more]) :
      FaultsAmong s.name (entriesAll children) e := by
    rw [alone]
    exact ⟨_, List.mem_cons_self, value, List.mem_singleton_self value, faults⟩
  unfold ofContent at h
  rcases of_bind_eq_error h with h | ⟨sole, known, h⟩
  · unfold soleDirective? at h
    split at h
    · exact sole_text (faults_of_whole? (of_map_eq_error h)) rfl
    · cases h
  · cases sole with
    | none => exact inside (of_map_eq_error h)
    | some found =>
        unfold soleDirective? at known
        split at known
        · obtain ⟨first, whole, known⟩ := bind_eq_ok.1 known
          cases first with
          | none => cases known
          | some o =>
              cases known
              have faults := faults_of_binding (mem_sequence_of_whole? whole) (of_map_eq_error h)
              exact sole_text faults rfl
        · cases known

mutual

/-- What becomes of a tree is refused for one of its texts. -/
theorem faults_of_tree : (t : NodeTree NodeId) → ofTree s t = .error e →
    FaultsAmong s.name t.entries e
  | .node id data children, h => by
      have below (inside : FaultsAmong s.name (entriesAll children) e) :
          FaultsAmong s.name (node id data children).entries e :=
        inside.mono (List.subset_cons_self ..)
      cases data with
      | text value =>
          have faults := faults_of_text (of_map_eq_error h)
          exact ⟨_, List.mem_cons_self, value, List.mem_singleton_self value, faults⟩
      | element name attributes =>
          rcases of_bind_eq_error h with h | ⟨⟨kept, slot⟩, -, h⟩
          · exact .of_attributes (faults_of_attributes attributes h)
          · -- Marked, holding one marked child, or plain: the texts below are those of the children.
            cases marked : blockOf? attributes with
            | some identity =>
                rw [marked] at h
                exact below (faults_of_trees children (of_map_eq_error h))
            | none =>
                cases sole : soleBlock? children with
                | some found =>
                    rw [marked, sole] at h
                    exact below (faults_of_promoted children (of_map_eq_error h))
                | none =>
                    rw [marked, sole] at h
                    rcases of_bind_eq_error h with h | ⟨_, -, h⟩
                    · exact below (faults_of_content (faults_of_trees children) h)
                    · cases h
      | comment value => cases h
      | doctype value => cases h
      | fragment => cases h

theorem faults_of_trees : (ts : List (NodeTree NodeId)) → ofTrees s ts = .error e →
    FaultsAmong s.name (entriesAll ts) e
  | [], h => by cases h
  | t :: ts, h => by
      rcases of_bind_eq_error h with h | ⟨_, -, h⟩
      · exact (faults_of_tree t h).mono (List.subset_append_left ..)
      · exact (faults_of_trees ts (of_map_eq_error h)).mono (List.subset_append_right ..)

theorem faults_of_promoted : (ts : List (NodeTree NodeId)) → ofPromoted s ts = .error e →
    FaultsAmong s.name (entriesAll ts) e
  | [], h => by cases h
  | .node id data children :: ts, h => by
      rw [ofPromoted] at h
      split at h
      · refine (faults_of_trees children h).mono ?_
        exact List.Subset.trans (List.subset_cons_self ..) (List.subset_append_left ..)
      · exact (faults_of_promoted ts h).mono (List.subset_append_right ..)

end

theorem faults_of_root {id : NodeId} {name : String} {attributes : List (String × Value)}
    {children : List (NodeTree NodeId)} (h : ofRoot s name attributes children = .error e) :
    FaultsAmong s.name (node id (.element name attributes) children).entries e := by
  rcases of_bind_eq_error h with h | ⟨_, -, h⟩
  · exact .of_attributes (faults_of_attributes attributes h)
  · rcases of_bind_eq_error h with h | ⟨_, -, h⟩
    · exact (faults_of_content (faults_of_trees children) h).mono (List.subset_cons_self ..)
    · cases h

end Plan

/-! ## Sources -/

/-- A tree is refused for one of its texts. -/
theorem faults_of_compileNode (config : Config) (title : String) {w w' : Workbench} {id : NodeId}
    {name : String} {attributes : List (String × Value)} {children : List (NodeTree NodeId)}
    {e : SyntaxError} (h : w.document.Sound)
    (read : w.document.tree id = .ok (.node id (.element name attributes) children))
    (refused : compileNode config title id w = .error (.malformed e) w') :
    FaultsAmong title (node id (.element name attributes) children).entries e := by
  have follows := compileNode_follows config title h read
  cases planned : Plan.ofRoot { config, name := title } name attributes children with
  | ok plan =>
      rw [planned] at follows
      obtain ⟨c, w'', run, -⟩ := follows
      rw [refused] at run
      cases run
  | error x =>
      rw [planned] at follows
      obtain ⟨w'', run⟩ := follows
      rw [refused] at run
      cases run
      exact Plan.faults_of_root planned

/-- Markup that can be parsed is refused for one of the texts of its first element. -/
theorem faults_of_parsed (config : Config) (title markup : String) {d : Document} (h : d.Sound)
    {e : SyntaxError} {w' : Workbench}
    (refused : (do
      let fragment ← edit (Document.parseMarkup markup)
      match ← ask (·.firstElement? fragment) with
      | none => throw (.dom (.markup "template has no root element"))
      | some id => compileNode config title id : Compile CompiledTemplate) { document := d } =
        .error (.malformed e) w') :
    ∃ t, CompiledTemplate.treeOf? markup = some t ∧ FaultsAmong title t.entries e := by
  cases parsed : Document.parseMarkup markup d with
  | error x d' =>
      have ended : edit (Document.parseMarkup markup) { document := d } =
          .error (.dom x) { document := d' } := by simp [edit, parsed]
      rw [bind_error ended] at refused
      cases refused
  | ok fragment d' =>
      rw [bind_ok (edit_ok parsed)] at refused
      obtain ⟨sound, ⟨-, first⟩ | ⟨t, tree, element, first, read⟩⟩ := root_parseMarkup h parsed
      · rw [bind_ok (ask_ok first)] at refused
        cases refused
      · rw [bind_ok (ask_ok first)] at refused
        refine ⟨t.shape, tree, ?_⟩
        rw [entries_shape]
        obtain ⟨id, data, children⟩ := t
        cases data with
        | element name attributes => exact faults_of_compileNode config title sound read refused
        | _ => cases element

/-- A template is refused for a tag in its source, or for a directive in a text or in the value of
an attribute of its root element, which is the first element of the parsed markup. The span lies on
the tag or on the directive; in the second case it counts from the beginning of that text. -/
theorem compileSource_refused (config : Config) (source : Source) {d : Document} (h : d.Sound)
    {e : SyntaxError}
    (refused : ((compileSource config source).run d).1 = .error (.malformed e)) :
    (∃ front before tag back, Fragment.pieces source = front ++ (before, tag) :: back ∧
        e.span.Covers source (Pieces.joined front ++ before) tag.text) ∨
      ∃ markup t, Fragment.blockify source config.alternateBlockOpen = .ok markup ∧
        CompiledTemplate.treeOf? (rootMarkup config markup) = some t ∧
        ∃ entry ∈ t.entries, ∃ text ∈ entry.1.texts, ∃ o ∈ Occurrence.sequence ⟨source.name, text⟩,
          ∃ front, e.span.Covers ⟨source.name, text⟩ front o.whole.toList := by
  have ran : ∃ w', compileSource config source { document := d } = .error (.malformed e) w' := by
    unfold Compile.run at refused
    split at refused
    · cases refused
    · rename_i x w' run
      cases refused
      exact ⟨w', run⟩
  obtain ⟨w', ran⟩ := ran
  unfold compileSource at ran
  cases blocks : Fragment.blockify source config.alternateBlockOpen with
  | error x =>
      rw [blocks] at ran
      cases ran
      exact .inl (Fragment.blockify_refused blocks)
  | ok markup =>
      rw [blocks, bind_ok (show lift (.ok markup) _ = .ok markup _ from rfl)] at ran
      obtain ⟨t, tree, entry, mem, text, inside, faults⟩ := faults_of_parsed config _ _ h ran
      obtain ⟨o, scanned, covers⟩ := faults.covers
      exact .inr ⟨markup, t, rfl, tree, entry, mem, text, inside, o, scanned, covers⟩

/-- The braces stand behind three characters of the template and at the beginning of their text. -/
example :
    (match compile ⟨"t", "<p>\x7b\x7bx\x7d\x7d\x7d</p>"⟩ with
      | .error (.malformed e) => e.span == Source.span ⟨"t", "\x7b\x7bx\x7d\x7d\x7d"⟩ 0 6
      | _ => false) = true := by decide +kernel

end Stencil
