import Stencil.Proofs.Compile.Refused

/-! # Trees that differ in their numbers

What a tree compiles to, or why it is refused, depends on its shape alone: neither the numbers
of its nodes nor what else is in the document make a difference.
-/

namespace Stencil

open Markup NodeTree View Compile

/-! ## Plans -/

namespace Plan

theorem soleDirective?_congr (s : Settings) {ts us : List (NodeTree NodeId)}
    (same : ts.map shape = us.map shape) : soleDirective? s ts = soleDirective? s us := by
  match ts, us, same with
  | [], [], _ => rfl
  | [.node i data below], [.node j data' below'], same =>
      simp only [List.map_cons, shape_node, List.cons.injEq, NodeTree.node.injEq] at same
      obtain ⟨⟨-, rfl, -⟩, -⟩ := same
      cases data <;> rfl
  | t :: t' :: ts, u :: u' :: us, _ => rw [soleDirective?, soleDirective?] <;> nofun
  | [], _ :: _, same | _ :: _, [], same | [_], _ :: _ :: _, same | _ :: _ :: _, [_], same =>
      simp at same

theorem isBlank_congr {t u : NodeTree NodeId} (same : t.shape = u.shape) :
    soleBlock?.isBlank t = soleBlock?.isBlank u := by
  obtain ⟨i, data, below⟩ := t
  obtain ⟨j, data', below'⟩ := u
  simp only [shape_node, NodeTree.node.injEq] at same
  obtain ⟨-, rfl, -⟩ := same
  cases data <;> rfl

theorem all_isBlank_congr {ts us : List (NodeTree NodeId)} (same : ts.map shape = us.map shape) :
    ts.all soleBlock?.isBlank = us.all soleBlock?.isBlank := by
  induction ts generalizing us with
  | nil =>
      obtain rfl : us = [] := List.map_eq_nil_iff.1 same.symm
      rfl
  | cons t ts ih =>
      cases us with
      | nil => simp at same
      | cons u us =>
          simp only [List.map_cons, List.cons.injEq] at same
          rw [List.all_cons, List.all_cons, isBlank_congr same.1, ih same.2]

/-- The only element among blank texts may have another number, but it is marked alike. -/
theorem soleBlock?_congr {ts us : List (NodeTree NodeId)} (same : ts.map shape = us.map shape) :
    (soleBlock? ts).map Prod.snd = (soleBlock? us).map Prod.snd := by
  induction ts generalizing us with
  | nil =>
      obtain rfl : us = [] := List.map_eq_nil_iff.1 same.symm
      rfl
  | cons t ts ih =>
      cases us with
      | nil => simp at same
      | cons u us =>
          obtain ⟨i, data, below⟩ := t
          obtain ⟨j, data', below'⟩ := u
          simp only [List.map_cons, shape_node, List.cons.injEq, NodeTree.node.injEq] at same
          obtain ⟨⟨-, rfl, -⟩, more⟩ := same
          cases data with
          | text value =>
              rw [soleBlock?, soleBlock?]
              split
              · exact ih more
              · rfl
          | element name attributes =>
              rw [soleBlock?, soleBlock?, all_isBlank_congr more]
              cases blockOf? attributes with
              | none => rfl
              | some identity => cases us.all soleBlock?.isBlank <;> rfl
          | comment value | fragment | doctype value => rfl

mutual

theorem ofTree_congr (s : Settings) : (t u : NodeTree NodeId) → t.shape = u.shape →
    ofTree s t = ofTree s u
  | .node i data ts, .node j data' us, same => by
      simp only [shape_node, NodeTree.node.injEq] at same
      obtain ⟨-, rfl, below⟩ := same
      cases data with
      | element name attributes =>
          simp only [ofTree, ofContent, soleDirective?_congr s below, ofTrees_congr s ts us below,
            ofPromoted_congr s ts us below]
          have marked := soleBlock?_congr below
          cases first : soleBlock? ts with
          | none =>
              rw [first, Option.map_none, eq_comm, Option.map_eq_none_iff] at marked
              rw [marked]
          | some found =>
              rw [first, Option.map_some, eq_comm, Option.map_eq_some_iff] at marked
              obtain ⟨⟨m', identity'⟩, second, same⟩ := marked
              obtain ⟨m, identity⟩ := found
              obtain rfl : identity' = identity := same
              rw [second]
              cases blockOf? attributes <;> rfl
      | text value | comment value | fragment | doctype value => rfl

theorem ofTrees_congr (s : Settings) : (ts us : List (NodeTree NodeId)) →
    ts.map shape = us.map shape → ofTrees s ts = ofTrees s us
  | [], [], _ => rfl
  | t :: ts, u :: us, same => by
      simp only [List.map_cons, List.cons.injEq] at same
      rw [ofTrees, ofTrees, ofTree_congr s t u same.1, ofTrees_congr s ts us same.2]
  | [], _ :: _, same | _ :: _, [], same => by simp at same

theorem ofPromoted_congr (s : Settings) : (ts us : List (NodeTree NodeId)) →
    ts.map shape = us.map shape → ofPromoted s ts = ofPromoted s us
  | [], [], _ => rfl
  | .node i data below :: ts, .node j data' below' :: us, same => by
      simp only [List.map_cons, shape_node, List.cons.injEq, NodeTree.node.injEq] at same
      obtain ⟨⟨-, rfl, inside⟩, more⟩ := same
      rw [ofPromoted, ofPromoted, ofTrees_congr s below below' inside, ofPromoted_congr s ts us more]
  | [], _ :: _, same | _ :: _, [], same => by simp at same

end

/-- The plan of a template depends on the shape of the children alone. -/
theorem ofRoot_congr (s : Settings) (name : String) (attributes : List (String × Value))
    {ts us : List (NodeTree NodeId)} (same : ts.map shape = us.map shape) :
    ofRoot s name attributes ts = ofRoot s name attributes us := by
  rw [ofRoot, ofRoot, ofContent, ofContent, soleDirective?_congr s same, ofTrees_congr s ts us same]

end Plan

/-! ## Templates -/

namespace Compile

variable {d e : Document} {x y : NodeId}

/-- What compiling a tree gives is what its plan gives. -/
theorem run_compileNode (config : Config) (title : String) {name : String}
    {attributes : List (String × Value)} {children : List (NodeTree NodeId)} (sound : d.Sound)
    (read : d.tree x = .ok (.node x (.element name attributes) children)) :
    ((compileNode config title x).run d).1 =
      ((Plan.ofRoot { config, name := title } name attributes children).map Plan.compiled).mapError
        .malformed := by
  have follows := compileNode_follows (w := { document := d }) config title sound read
  cases planned : Plan.ofRoot { config, name := title } name attributes children with
  | ok plan => exact compileNode_accepts config title sound read planned
  | error fault =>
      rw [planned] at follows
      obtain ⟨w', run⟩ := follows
      rw [Compile.run, run]
      rfl

/-- Accepted or refused, a tree that is compiled leaves everything outside of it as it was. -/
theorem compileNode_kept (config : Config) (title : String) {name : String}
    {attributes : List (String × Value)} {children : List (NodeTree NodeId)} (sound : d.Sound)
    (read : d.tree x = .ok (.node x (.element name attributes) children)) {z : NodeId}
    (out : z ∉ (NodeTree.node x (.element name attributes) children).labels) (live : d.view z ≠ none) :
    ((compileNode config title x).run d).2.1.view z = d.view z := by
  rw [labels_node, List.mem_cons, not_or] at out
  have follows := compileNode_follows (w := { document := d }) config title sound read
  cases ended : compileNode config title x { document := d } with
  | ok c w' =>
      have accepted : ((compileNode config title x).run d).1 = .ok c := by rw [Compile.run, ended]
      obtain ⟨plan, w', -, written, document⟩ := follows.of_run accepted
      rw [document]
      exact written.frame z out.1 out.2 live
  | error error w' =>
      have spared := compileNode_spares (w := { document := d }) config title sound read
      rw [Compile.run, ended]
      refine spared error w' ended z ?_ live
      rw [Around, not_or]
      exact out

/-- Numbers do not matter: elements whose trees have one shape compile to the same template, or
are refused for the same reason, whatever else is in their documents; and what is outside of
these trees stays as it is. -/
theorem compileNode_alike (config : Config) (title : String) {t u : NodeTree NodeId}
    (sound₁ : d.Sound) (sound₂ : e.Sound) (read₁ : d.tree x = .ok t) (read₂ : e.tree y = .ok u)
    (element : t.data.isElement = true) (alike : t.shape = u.shape) :
    ((compileNode config title x).run d).1 = ((compileNode config title y).run e).1 ∧
      (∀ error, ((compileNode config title x).run d).1 = .error error →
        ∃ fault, error = .malformed fault) ∧
      (∀ z, z ∉ t.labels → d.view z ≠ none →
        ((compileNode config title x).run d).2.1.view z = d.view z) ∧
      ∀ z, z ∉ u.labels → e.view z ≠ none →
        ((compileNode config title y).run e).2.1.view z = e.view z := by
  obtain ⟨i, data, ts⟩ := t
  obtain ⟨j, data', us⟩ := u
  simp only [shape_node, NodeTree.node.injEq] at alike
  obtain ⟨-, rfl, below⟩ := alike
  cases data with
  | element name attributes =>
      obtain ⟨-, -, rfl, -⟩ := Document.stands_of_treeWithin sound₁.forest _ x _ read₁
      obtain ⟨-, -, rfl, -⟩ := Document.stands_of_treeWithin sound₂.forest _ y _ read₂
      have outcome₁ := run_compileNode config title sound₁ read₁
      have outcome₂ := run_compileNode config title sound₂ read₂
      refine ⟨?_, fun error refused => ?_, fun z => compileNode_kept config title sound₁ read₁,
        fun z => compileNode_kept config title sound₂ read₂⟩
      · rw [outcome₁, outcome₂, Plan.ofRoot_congr _ name attributes below]
      · rw [outcome₁] at refused
        cases planned : Plan.ofRoot { config, name := title } name attributes ts with
        | ok plan => simp [planned, Except.map, Except.mapError] at refused
        | error fault =>
            simp only [planned, Except.map, Except.mapError, Except.error.injEq] at refused
            exact ⟨fault, refused.symm⟩
  | text value | comment value | fragment | doctype value => cases element

/-- A paragraph in front of a comment, and one behind a number that has been given up. -/
theorem compileNode_alike_paragraphs :
    let paragraph (i j : NodeId) : NodeTree NodeId :=
      .node i (.element "p" [("title", .string "{{t}}")]) [.node j (.text "Hi {{n}}") []]
    let comment (i : NodeId) : NodeTree NodeId := .node i (.comment "beside") []
    let alone : Document := { name := "page", strict := false }
    let d := (Document.plant none (Document.plant none alone (paragraph ⟨0⟩ ⟨1⟩)).2 (comment ⟨2⟩)).2
    let full := (Document.plant none (Document.plant none alone (comment ⟨0⟩)).2 (paragraph ⟨1⟩ ⟨2⟩)).2
    ∃ e, Document.release ⟨0⟩ full = .ok () e ∧ e.tree ⟨1⟩ = .ok (paragraph ⟨1⟩ ⟨2⟩) ∧
      ((compileNode {} "page" ⟨0⟩).run d).1 = ((compileNode {} "page" ⟨1⟩).run e).1 ∧
      ((compileNode {} "page" ⟨0⟩).run d).2.1.view ⟨2⟩ = d.view ⟨2⟩ ∧ d.view ⟨2⟩ ≠ none := by
  intro paragraph comment alone d full
  have fits (i j : NodeId) : (paragraph i j).Fits := by
    simp [paragraph, Fits, FitAll, NodeTree.data, View.AttributesDistinct, NodeData.attributes,
      NodeData.isContainer]
  have fits' (i : NodeId) : (comment i).Fits := by
    simp [comment, Fits, FitAll, View.AttributesDistinct, NodeData.attributes]
  have sound : alone.Sound := Document.sound_empty "page" false
  have sound₁ : d.Sound :=
    Document.sound_plant (Document.sound_plant sound (fits ⟨0⟩ ⟨1⟩)) (fits' ⟨2⟩)
  have sound₂ : full.Sound :=
    Document.sound_plant (Document.sound_plant sound (fits' ⟨0⟩)) (fits ⟨1⟩ ⟨2⟩)
  have top : full.view ⟨0⟩ = some { data := .comment "beside", parent := none, children := [] } := rfl
  have read : full.tree ⟨1⟩ = .ok (paragraph ⟨1⟩ ⟨2⟩) := rfl
  obtain ⟨e, released, sound₃, frame⟩ :=
    Document.release_root_ok (t := comment ⟨0⟩) sound₂ ⟨top, trivial⟩
  have read₁ : d.tree ⟨0⟩ = .ok (paragraph ⟨0⟩ ⟨1⟩) := rfl
  have live : d.view ⟨2⟩ ≠ none := Option.ne_none_iff_isSome.2 (by decide +kernel)
  have apart : ∀ x ∈ (paragraph ⟨1⟩ ⟨2⟩).labels, x ∉ (comment ⟨0⟩).labels := by decide
  have read₂ : e.tree ⟨1⟩ = .ok (paragraph ⟨1⟩ ⟨2⟩) := by
    obtain ⟨n, -, -, stands⟩ := Document.stands_of_treeWithin sound₂.forest _ _ _ read
    exact Document.tree_of_stands (stands.congr fun x mem => frame x (apart x mem)) (by decide)
  obtain ⟨same, -, others, -⟩ := compileNode_alike {} "page" sound₁ sound₃ read₁ read₂ rfl rfl
  exact ⟨e, released, read₂, same, others ⟨2⟩ (by decide) live, live⟩

end Compile

end Stencil
