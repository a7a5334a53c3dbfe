import Stencil.Proofs.Document.Cloning
import Stencil.Proofs.Document.Insertion
import Stencil.Proofs.Markup.Growth

/-! # Building

Markup is read into a document node by node: an element is created and hung up when its open tag
is read, and what follows is put into it until it is left. That comes to planting the trees that
the markup is read as. While elements are open, each of them hangs in the next one with the trees
of its children so far; leaving one changes nothing in the document.
-/

namespace Stencil

open Markup NodeTree

namespace View

variable {v w : View}

/-- Containers, each of which hangs in the next one; the last one has no parent. -/
def Ladder (v : View) : List NodeId → Prop
  | [] => True
  | x :: xs =>
      (∃ n, v x = some n ∧ n.data.isContainer = true ∧ n.parent = xs.head?) ∧ Ladder v xs

theorem Ladder.rooted {x : NodeId} {xs : List NodeId} (h : Ladder v (x :: xs)) : Rooted v x := by
  induction xs generalizing x with
  | nil =>
      obtain ⟨⟨n, node, -, parent⟩, -⟩ := h
      exact .top node parent
  | cons y ys ih =>
      obtain ⟨⟨n, node, -, parent⟩, below⟩ := h
      exact .under node parent (ih below)

theorem Ladder.live {xs : List NodeId} (h : Ladder v xs) {x : NodeId} (mem : x ∈ xs) : v x ≠ none := by
  induction xs with
  | nil => simp at mem
  | cons y ys ih =>
      obtain ⟨⟨n, node, -⟩, below⟩ := h
      rcases List.mem_cons.1 mem with rfl | mem
      · simp [node]
      · exact ih below mem

/-- Above a node of a ladder there are the nodes that follow. -/
theorem Ladder.mem_of_above {a x : NodeId} {xs : List NodeId} (h : Ladder v (x :: xs))
    (above : Above v a x) : a ∈ x :: xs := by
  induction xs generalizing x with
  | nil =>
      obtain ⟨⟨n, node, -, parent⟩, -⟩ := h
      cases above with
      | self => exact List.mem_cons_self ..
      | step node' parent' _ =>
          rw [node] at node'
          cases node'
          rw [parent] at parent'
          cases parent'
  | cons y ys ih =>
      obtain ⟨⟨n, node, -, parent⟩, below⟩ := h
      cases above with
      | self => exact List.mem_cons_self ..
      | step node' parent' above =>
          rw [node] at node'
          cases node'
          rw [parent] at parent'
          cases parent'
          exact List.mem_cons_of_mem _ (ih below above)

/-- A ladder stays a ladder where its nodes keep their data and their parents. -/
theorem Ladder.congr {xs : List NodeId} (h : Ladder v xs)
    (same : ∀ x n, v x = some n → ∃ m, w x = some m ∧ m.data = n.data ∧ m.parent = n.parent) :
    Ladder w xs := by
  induction xs with
  | nil => trivial
  | cons x xs ih =>
      obtain ⟨⟨n, node, container, parent⟩, below⟩ := h
      obtain ⟨m, node', data, up⟩ := same x n node
      exact ⟨⟨m, node', data ▸ container, up ▸ parent⟩, ih below⟩

end View

namespace Document

open Edit

variable {d D : Document} {root p : NodeId} {n : Node}

/-! ## New nodes in hosts -/

/-- A node that is created alone has been planted. -/
theorem plant_leaf (h : d.Accounted) (data : NodeData) :
    d.plant none (.node () data []) = d.create data := by
  rw [plant_node h () data [], hung_nil (planted_create h data).stands.1]

/-- A node with children is hung up as the node alone, which then gets its children. -/
theorem hung_node (h : d.Accounted) (there : d.view p = some n) (data : NodeData)
    (ts : List (NodeTree Unit)) :
    d.hung p [.node () data ts] =
      (d.hung p [.node () data []]).hung (d.create data).1 ts := by
  have created := planted_create h data
  have accounted := created.trades.accounted
  have new := created.stands.1
  have other : p ≠ (d.create data).1 := by
    rintro rfl
    rw [created.trades.fresh _ (List.mem_singleton_self _) (by simp)] at there
    cases there
  have old : ((d.create data).2.modify (d.create data).1 fun n =>
      { n with parent := some p }).view p = some n := by
    rw [view_modify, View.alter_of_ne _ _ other, created.trades.kept there (by simp)]
  rw [hung_singleton h p (.node () data ts), hung_singleton h p (.node () data []),
    plant_node h, plant_leaf h, modify_hung (accounted.modify _ _) old other,
    reparent_hung accounted new]

/-- A new node that is hung up is a child of its p and has no children. -/
theorem view_hung_leaf (h : d.Accounted) (there : d.view p = some n) (data : NodeData) :
    (d.hung p [.node () data []]).view (d.create data).1 =
      some { data, parent := some p, children := [] } := by
  have created := planted_create h data
  have other : (d.create data).1 ≠ p := by
    rintro rfl
    rw [created.trades.fresh _ (List.mem_singleton_self _) (by simp)] at there
    cases there
  rw [hung_singleton h p, plant_leaf h, view_modify, View.alter_of_ne _ _ other, view_modify,
    View.alter_self _ created.stands.1]
  rfl

/-- What is hung up somewhere keeps ladders. -/
theorem ladder_hung (h : d.Accounted) (there : d.view p = some n) {xs : List NodeId}
    (ladder : d.view.Ladder xs) (ts : List (NodeTree Unit)) : (d.hung p ts).view.Ladder xs := by
  refine ladder.congr fun x m node => ?_
  by_cases same : x = p
  · subst same
    rw [there] at node
    cases node
    exact ⟨_, view_hung h there, rfl, rfl⟩
  · exact ⟨m, hung_kept h node same, rfl, rfl⟩

/-! ## Open elements -/

/-- The nodes of open elements, and the root behind them. -/
def openHosts (root : NodeId) (opened : List OpenNode) : List NodeId :=
  opened.map OpenNode.id ++ [root]

theorem openHosts_eq (root : NodeId) (opened : List OpenNode) :
    ∃ above, openHosts root opened = innermost root opened :: above := by
  cases opened with
  | nil => exact ⟨[], rfl⟩
  | cons e rest => exact ⟨openHosts root rest, rfl⟩

/-- The open elements make a ladder from the innermost one to the root. -/
structure Climbable (root : NodeId) (opened : List OpenNode) (D : Document) : Prop where
  accounted : D.Accounted
  ladder : D.view.Ladder (openHosts root opened)

namespace Climbable

variable {opened : List OpenNode}

theorem exists_host (s : Climbable root opened D) :
    ∃ n, D.view (innermost root opened) = some n ∧ n.data.isContainer = true := by
  obtain ⟨above, eq⟩ := openHosts_eq root opened
  have ladder := s.ladder
  rw [eq] at ladder
  obtain ⟨⟨n, there, container, -⟩, -⟩ := ladder
  exact ⟨n, there, container⟩

theorem hung (s : Climbable root opened D) (there : D.view p = some n) (ts : List (NodeTree Unit)) :
    Climbable root opened (D.hung p ts) :=
  ⟨s.accounted.hung p ts, ladder_hung s.accounted there s.ladder ts⟩

/-- A new element in the innermost one takes its place. -/
theorem push (s : Climbable root opened D) {data : NodeData} (container : data.isContainer = true)
    {e : OpenNode} (id : e.id = (D.create data).1) :
    Climbable root (e :: opened) (D.hung (innermost root opened) [.node () data []]) := by
  obtain ⟨n, there, -⟩ := s.exists_host
  obtain ⟨above, eq⟩ := openHosts_eq root opened
  have placed := s.hung there [.node () data []]
  have leaf := view_hung_leaf s.accounted there data
  rw [← id] at leaf
  have next : (openHosts root opened).head? = some (innermost root opened) := by rw [eq, List.head?_cons]
  exact ⟨placed.accounted, ⟨_, leaf, container, next.symm⟩, placed.ladder⟩

end Climbable

/-- What a document has become in which the elements of `elements` are open at the nodes of
`opened`, each with the trees of its children so far, and with `outer` outside all of them. -/
inductive Built (d : Document) (root : NodeId) (outer : List (NodeTree Unit)) :
    List OpenNode → List OpenElement → Document → Prop where
  | bare : Built d root outer [] [] (d.hung root outer.reverse)
  | under {opened : List OpenNode} {elements : List OpenElement} {D : Document}
      (around : Built d root outer opened elements D) (e : OpenElement) :
      Built d root outer
        (⟨(D.create (.element e.name e.attributes)).1, e.name, e.start, e.stop⟩ :: opened)
        (e :: elements)
        ((D.hung (innermost root opened) [.node () (.element e.name e.attributes) []]).hung
          (D.create (.element e.name e.attributes)).1 e.children.reverse)

namespace Built

variable {outer : List (NodeTree Unit)} {opened : List OpenNode} {elements : List OpenElement}

theorem of_eq {D' : Document} (g : Built d root outer opened elements D) (same : D = D') :
    Built d root outer opened elements D' := same ▸ g

/-- Where no element is open, the trees outside have been hung up. -/
theorem eq_hung (g : Built d root outer opened [] D) : D = d.hung root outer.reverse := by
  cases g with
  | bare => rfl

/-- The open elements have the same names. -/
theorem names (g : Built d root outer opened elements D) :
    opened.map OpenNode.name = elements.map OpenElement.name := by
  induction g with
  | bare => rfl
  | under _ e ih => rw [List.map_cons, List.map_cons, ih]

theorem climbable (g : Built d root outer opened elements D) (s : Climbable root [] d) :
    Climbable root opened D := by
  induction g with
  | bare =>
      obtain ⟨n, there, -⟩ := s.exists_host
      exact s.hung there _
  | under around e ih =>
      obtain ⟨n, there, -⟩ := ih.exists_host
      exact (ih.push rfl rfl).hung (view_hung_leaf ih.accounted there _) _

end Built

/-! ## Tokens -/

/-- The builder is where the reading of trees is, and the document has grown with it. -/
structure Tracks (d : Document) (root : NodeId) (b : Builder) (g : Growth) (D : Document) : Prop where
  top : b.root = root
  flaws : b.flaws = g.flaws
  grown : Built d root g.outer b.opened g.opened D

namespace Tracks

variable {b : Builder} {g : Growth}

/-- A tree that is hung up in the innermost open element has been read. -/
theorem add (t : Tracks d root b g D) (s : Climbable root [] d) (u : NodeTree Unit) :
    Tracks d root b (g.add u) (D.hung (innermost root b.opened) [u]) := by
  obtain ⟨_, opened, flaws⟩ := b
  obtain ⟨elements, outer, others⟩ := g
  obtain ⟨top, same, grown⟩ := t
  cases grown with
  | bare =>
      obtain ⟨n, there, -⟩ := s.exists_host
      have more := hung_append s.accounted there outer.reverse [u]
      rw [← List.reverse_cons] at more
      exact ⟨top, same, Built.bare.of_eq more⟩
  | under around e =>
      have below := around.climbable s
      obtain ⟨n, there, -⟩ := below.exists_host
      have leaf := view_hung_leaf below.accounted there (.element e.name e.attributes)
      have more := hung_append (below.accounted.hung _ _) leaf e.children.reverse [u]
      rw [← List.reverse_cons] at more
      exact ⟨top, same, (around.under { e with children := u :: e.children }).of_eq more⟩

/-- When the innermost element is left, its tree has been hung up as a whole. -/
theorem pop (t : Tracks d root b g D) (s : Climbable root [] d) :
    Tracks d root b.pop g.closeTop D := by
  obtain ⟨_, opened, flaws⟩ := b
  obtain ⟨elements, outer, others⟩ := g
  obtain ⟨top, same, grown⟩ := t
  cases grown with
  | bare => exact ⟨top, same, .bare⟩
  | @under opened elements D around e =>
      have below := around.climbable s
      obtain ⟨n, there, -⟩ := below.exists_host
      have whole := hung_node below.accounted there (.element e.name e.attributes) e.children.reverse
      have rest : Tracks d root ⟨_, opened, flaws⟩ ⟨elements, outer, others⟩ D := ⟨top, same, around⟩
      rw [← whole]
      exact rest.add s e.close

theorem drop (t : Tracks d root b g D) (s : Climbable root [] d) (n : Nat) :
    Tracks d root { b with opened := b.opened.drop n } (g.close n) D := by
  induction n generalizing b g with
  | zero => exact t
  | succ n ih =>
      have rest := ih (t.pop s)
      rwa [Builder.pop, List.drop_tail] at rest

/-- A new element is open, and has no children so far. -/
theorem push (t : Tracks d root b g D) (s : Climbable root [] d) (e : OpenElement)
    (empty : e.children = []) :
    Tracks d root
      { b with
        opened := ⟨(D.create (.element e.name e.attributes)).1, e.name, e.start, e.stop⟩ :: b.opened }
      { g with opened := e :: g.opened }
      (D.hung (innermost root b.opened) [.node () (.element e.name e.attributes) []]) := by
  have around := t.grown.climbable s
  obtain ⟨n, there, -⟩ := around.exists_host
  have leaf := view_hung_leaf around.accounted there (.element e.name e.attributes)
  have grown := t.grown.under e
  rw [empty, List.reverse_nil, hung_nil leaf] at grown
  exact ⟨t.top, t.flaws, grown⟩

theorem report (t : Tracks d root b g D) (fault : Fault) (start stop : Nat) :
    Tracks d root (b.report fault start stop)
      { g with flaws := ⟨fault, start, stop⟩ :: g.flaws } D where
  top := t.top
  flaws := by rw [Builder.report, t.flaws]
  grown := t.grown

theorem reportTop (t : Tracks d root b g D) : Tracks d root b.reportTop g.reportTop D := by
  obtain ⟨_, opened, flaws⟩ := b
  obtain ⟨elements, outer, others⟩ := g
  obtain ⟨top, same, grown⟩ := t
  cases grown with
  | bare => exact ⟨top, same, .bare⟩
  | under around e =>
      have whole : Tracks d root ⟨_, _, flaws⟩ ⟨_, outer, others⟩ _ := ⟨top, same, around.under e⟩
      unfold Builder.reportTop Growth.reportTop
      dsimp only
      split
      · rwa [if_pos (show e.isOptional = true from ‹_›)]
      · rw [if_neg (show ¬e.isOptional = true from ‹_›)]
        exact whole.report _ _ _

/-- Open elements are left and reported alike. -/
theorem abandon (t : Tracks d root b g D) (s : Climbable root [] d) (n : Nat) :
    Tracks d root (b.abandon n) (g.abandon n) D := by
  induction n generalizing b g with
  | zero => exact t
  | succ n ih => exact ih (t.reportTop.pop s)

/-- A new node is put into the innermost open element, and no refusal is passed over. -/
theorem add_run (t : Tracks d root b g D) (s : Climbable root [] d) {data : NodeData}
    (solid : data ≠ .fragment) :
    b.add data D =
      .ok (D.create data).1 (D.hung (innermost root b.opened) [.node () data []]) := by
  have around := t.grown.climbable s
  have created := planted_create around.accounted data
  have ladder : (D.create data).2.view.Ladder (openHosts root b.opened) :=
    around.ladder.congr fun x n node => ⟨n, created.trades.kept node (by simp), rfl, rfl⟩
  obtain ⟨n, there, container⟩ := around.exists_host
  obtain ⟨above, eq⟩ := openHosts_eq root b.opened
  have apart : ¬(D.create data).2.view.Above (D.create data).1 (innermost root b.opened) := by
    intro entangled
    rw [eq] at ladder
    have old := ladder.mem_of_above entangled
    rw [← eq] at old
    exact around.ladder.live old (created.trades.fresh _ (List.mem_singleton_self _) (by simp))
  have rooted : (D.create data).2.view.Rooted (innermost root b.opened) := by
    rw [eq] at ladder
    exact ladder.rooted
  have put := append_new (created.trades.kept there (by simp)) container created.stands.1 solid rfl
    rooted apart
  have hangs := hang_plant around.accounted there (.node () data [])
  rw [plant_leaf around.accounted, ← put] at hangs
  rw [Builder.add, t.top, bind_ok (change_run _ D), bind_ok (tryCatch_ok hangs)]
  rfl

/-- A tag ends as many open elements on both sides. -/
theorem dropWhile_ended (t : Tracks d root b g D) (q : String → Bool) :
    b.opened.dropWhile (fun e => q e.name) =
      b.opened.drop (g.opened.takeWhile fun e => q e.name).length := by
  have counted : (b.opened.takeWhile fun e => q e.name).length =
      (g.opened.takeWhile fun e => q e.name).length := by
    have same := congrArg (fun names => (names.takeWhile q).length) t.grown.names
    simpa only [List.takeWhile_map, List.length_map, Function.comp_def] using same
  have whole := List.takeWhile_append_dropWhile (p := fun e => q e.name) (l := b.opened)
  rw [← counted]
  conv => rhs; arg 2; rw [← whole]
  exact List.drop_left.symm

/-- Both find the same open element with a name. -/
theorem findIdx?_name (t : Tracks d root b g D) (name : String) :
    b.opened.findIdx? (·.name == name) = g.opened.findIdx? (·.name == name) := by
  have same := congrArg (List.findIdx? (· == name)) t.grown.names
  simpa only [List.findIdx?_map, Function.comp_def] using same

/-- A node without children is read alike. -/
theorem add_leaf (t : Tracks d root b g D) (s : Climbable root [] d) {data : NodeData}
    (solid : data ≠ .fragment) :
    ∃ D', (do discard (b.add data); return b : Edit Builder) D = .ok b D' ∧
      Tracks d root b (g.add (.node () data [])) D' :=
  ⟨_, bind_ok (discard_ok (t.add_run s solid)), t.add s _⟩

/-- One token is read alike. -/
theorem step (t : Tracks d root b g D) (s : Climbable root [] d) (token : Token) :
    ∃ b' D', b.step token D = .ok b' D' ∧ Tracks d root b' (g.step token) D' := by
  unfold Builder.step Growth.step
  cases token.lexeme with
  | text value => exact ⟨b, t.add_leaf s (by simp)⟩
  | comment value => exact ⟨b, t.add_leaf s (by simp)⟩
  | doctype value => exact ⟨b, t.add_leaf s (by simp)⟩
  | openTag name attributes selfClosing =>
      dsimp only
      have closed := t.drop s
        (g.opened.takeWhile fun e => (TagRules.of e.name).isClosedBy name).length
      rw [t.dropWhile_ended fun own => (TagRules.of own).isClosedBy name]
      have solid : NodeData.element name (firstAttributes attributes) ≠ .fragment := by simp
      rw [bind_ok (closed.add_run s solid)]
      split
      · exact ⟨_, _, rfl, closed.add s _⟩
      · exact ⟨_, _, rfl, closed.push s ⟨name, firstAttributes attributes, _, _, []⟩ rfl⟩
  | closeTag name =>
      dsimp only
      split
      · exact ⟨_, _, rfl, t.report _ _ _⟩
      · rw [t.findIdx?_name name]
        cases g.opened.findIdx? (·.name == name) with
        | none => exact ⟨_, _, rfl, t.report _ _ _⟩
        | some inside => exact ⟨_, _, rfl, (t.abandon s inside).pop s⟩

theorem run (t : Tracks d root b g D) (s : Climbable root [] d) (tokens : List Token) :
    ∃ b' D', tokens.foldlM Builder.step b D = .ok b' D' ∧
      Tracks d root b' (tokens.foldl Growth.step g) D' := by
  induction tokens generalizing b g D with
  | nil => exact ⟨b, D, rfl, t⟩
  | cons token tokens ih =>
      obtain ⟨b₁, D₁, first, t₁⟩ := t.step s token
      obtain ⟨b', D', others, t'⟩ := ih t₁
      refine ⟨b', D', ?_, t'⟩
      rw [List.foldlM_cons, bind_ok first, others]

end Tracks

/-- Reading markup plants the fragment of the trees that the markup is read as. -/
theorem plantMarkup_run (h : d.Accounted) (markup : String) :
    plantMarkup markup d =
      .ok ((d.plant none (.node () .fragment (parse markup).1)).1,
          (parse markup).2.map (Flaw.report { name := d.name, text := markup }))
        (d.plant none (.node () .fragment (parse markup).1)).2 := by
  have created := planted_create h .fragment
  have climbable : Climbable (d.create .fragment).1 [] (d.create .fragment).2 :=
    ⟨created.trades.accounted, ⟨_, created.stands.1, rfl, rfl⟩, trivial⟩
  have start : Tracks (d.create .fragment).2 (d.create .fragment).1
      ⟨(d.create .fragment).1, [], []⟩ Growth.start (d.create .fragment).2 :=
    ⟨rfl, rfl, Built.bare.of_eq (hung_nil created.stands.1)⟩
  obtain ⟨built, D, run, tracks⟩ := start.run climbable (tokenize markup).1
  have left := tracks.abandon climbable built.opened.length
  have depth := congrArg List.length tracks.grown.names
  rw [List.length_map, List.length_map] at depth
  rw [depth] at left
  have whole := left.grown
  rw [Growth.opened_abandon] at whole
  have made : change (fun d => d.create .fragment) d =
      .ok (d.create .fragment).1 (d.create .fragment).2 := change_run _ d
  rw [plant_node h, plantMarkup, bind_ok (get_run d)]
  dsimp only
  rw [bind_ok made, bind_ok run, depth, left.flaws, whole.eq_hung]
  rfl

end Document

end Stencil
