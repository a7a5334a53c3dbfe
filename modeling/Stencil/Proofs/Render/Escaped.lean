import Stencil.Proofs.Markup.Element
import Stencil.Proofs.Render.Drawing

/-! # Values that are shown as text

Values that are written as text into an element without children, and values that built-in handlers
write into its attributes, leave the structure of its markup alone: the markup reads as the open tag
with the same attribute names, the text that was written last, and the closing tag. Nothing is asked
of the document but that the chain of parents of the element ends.
-/

namespace Stencil

open Markup NodeTree Document Edit View

/-! ## Chains of parents -/

namespace View

variable {v w : View} {c x : NodeId}

/-- Chains of parents end as long as no parent changes. -/
theorem Rooted.of_parents (h : v.Rooted x)
    (kept : ∀ y n, v y = some n → ∃ m, w y = some m ∧ m.parent = n.parent) : w.Rooted x := by
  induction h with
  | top node parent =>
      obtain ⟨m, there, same⟩ := kept _ _ node
      exact .top there (same.trans parent)
  | under node parent _ ih =>
      obtain ⟨m, there, same⟩ := kept _ _ node
      exact .under there (same.trans parent) ih

/-- A new node is above none that was there. -/
theorem Rooted.not_above_new (h : v.Rooted x) (kept : ∀ y n, v y = some n → w y = some n)
    (new : v c = none) : ¬w.Above c x := by
  induction h with
  | top node parent =>
      intro above
      rw [above.eq_of_top (kept _ _ node) parent, node] at new
      cases new
  | @under x p n node parent _ ih =>
      intro above
      have other : c ≠ x := by
        rintro rfl
        rw [node] at new
        cases new
      exact ih (above.of_parent (kept _ _ node) parent other)

end View

/-! ## Writes -/

/-- A write into an element: of a value or of the result of a function as the text that it shows,
or by the handler of a kind into one of its attributes. -/
inductive TextWrite where
  | escaped (value : Value)
  | result (identity : Nat) (value : Value)
  | attr (kind : RenderKind) (name : String) (value : Value)

namespace TextWrite

def run (node : NodeId) : TextWrite → Writing Unit
  | escaped value => Handler.escaped (.content node) value
  | result identity value => Handler.function (.content node) (.function identity value)
  | attr kind name value => kind.handler (.attr node name) value

/-- The text that the element shows by a write into its content. -/
def shown? : TextWrite → Option String
  | escaped value => some value.text
  | result _ value => some value.text
  | attr _ _ _ => none

/-- The attributes after a write. -/
def dress : TextWrite → List (String × Value) → List (String × Value)
  | attr kind name value, own => Value.putField name (kind.attributeValue value) own
  | _, own => own

/-- The kind has a built-in handler, and the attribute is there. -/
def Fits (own : List (String × Value)) : TextWrite → Prop
  | attr kind name _ => kind.isBuiltIn = true ∧ name ∈ own.map Prod.fst
  | _ => True

/-- The text that is shown after writes, the last one that was written. -/
def lastShown? (writes : List TextWrite) : Option String := (writes.filterMap shown?).getLast?

/-- The attributes after writes. -/
def dressAll (writes : List TextWrite) (own : List (String × Value)) : List (String × Value) :=
  writes.foldl (fun own write => write.dress own) own

theorem names_putField {name : String} (value : Value) {own : List (String × Value)}
    (mem : name ∈ own.map Prod.fst) : (Value.putField name value own).map Prod.fst = own.map Prod.fst := by
  induction own with
  | nil => cases mem
  | cons entry own ih =>
      obtain ⟨k, old⟩ := entry
      rw [Value.putField]
      split
      · rfl
      · rename_i other
        have further := (List.mem_cons.1 mem).resolve_left (Ne.symm other)
        rw [List.map_cons, List.map_cons, ih further]

theorem names_dress {own : List (String × Value)} {write : TextWrite} (fits : write.Fits own) :
    (write.dress own).map Prod.fst = own.map Prod.fst := by
  cases write with
  | escaped | result => rfl
  | attr kind name value => exact names_putField _ fits.2

theorem Fits.congr {own more : List (String × Value)} {write : TextWrite} (fits : write.Fits own)
    (same : more.map Prod.fst = own.map Prod.fst) : write.Fits more := by
  cases write with
  | escaped | result => trivial
  | attr kind name value => exact ⟨fits.1, same ▸ fits.2⟩

theorem names_dressAll (writes : List TextWrite) {own : List (String × Value)}
    (fits : ∀ write ∈ writes, write.Fits own) : (dressAll writes own).map Prod.fst = own.map Prod.fst := by
  induction writes generalizing own with
  | nil => rfl
  | cons write writes ih =>
      obtain ⟨here, others⟩ := List.forall_mem_cons.1 fits
      have names := names_dress here
      exact (ih fun w mem => (others w mem).congr names).trans names

theorem lastShown?_cons (write : TextWrite) (writes : List TextWrite) :
    lastShown? (write :: writes) = (lastShown? writes).or write.shown? := by
  unfold lastShown?
  cases shown : write.shown? with
  | none => rw [List.filterMap_cons_none shown, Option.or_none]
  | some words =>
      rw [List.filterMap_cons_some shown, List.getLast?_cons]
      cases (writes.filterMap shown?).getLast? <;> rfl

end TextWrite

/-! ## Elements that show a text -/

/-- An element with its attributes, and with nothing in it but the text that it shows, if any. -/
structure Showing (d : Document) (x : NodeId) (tag : String) (own : List (String × Value))
    (shown : Option String) : Prop where
  accounted : d.Accounted
  rooted : d.view.Rooted x
  stands : ∃ parent c, d.view.Stands parent
    (.node x (.element tag own) (shown.toList.map fun words => .node c (.text words) []))

namespace Showing

variable {d : Document} {x : NodeId} {tag : String} {own : List (String × Value)} {shown : Option String}

/-- A value is put into an attribute. -/
theorem setAttributeValue (h : Showing d x tag own shown) (name : String) (value : Value) :
    ∃ d', Document.setAttributeValue x name value d = .ok () d' ∧
      Showing d' x tag (Value.putField name value own) shown := by
  obtain ⟨parent, c, node, inside⟩ := h.stands
  have run : Document.setAttributeValue x name value d = .ok () _ :=
    (bind_ok (ask_ok (known_attributes node))).trans (modifyNode_ok _ node)
  have accounted := lasting_accounted.setAttributeValue x name value d h.accounted
  rw [after_ok run] at accounted
  refine ⟨_, run, accounted, h.rooted.of_parents fun y n there => ?_, parent, c, ?_, ?_⟩
  · rw [view_modify]
    by_cases same : y = x
    · subst same
      rw [node] at there
      cases there
      exact ⟨_, alter_self _ node, rfl⟩
    · exact ⟨n, (alter_of_ne _ _ same).trans there, rfl⟩
  · rw [view_modify, alter_self _ node]
  · -- The text below is another node, since its chain of parents would not end else.
    cases shown with
    | none => trivial
    | some words =>
        obtain ⟨⟨text, -⟩, -⟩ := inside
        have other : c ≠ x := by
          rintro rfl
          exact (h.rooted.not_above_parent text rfl) .self
        exact ⟨⟨by rw [view_modify, alter_of_ne _ _ other, text], trivial⟩, trivial⟩

/-- An element without children receives a text. -/
theorem appendText (h : Showing d x tag own none) (words : String) :
    ∃ d', (do append x (← createText words) : Edit Unit) d = .ok () d' ∧
      Showing d' x tag own (some words) := by
  obtain ⟨parent, c, node, _⟩ := h.stands
  have planted := planted_create h.accounted (.text words)
  have created : createText words d =
      .ok (d.create (.text words)).1 (d.create (.text words)).2 := change_run _ d
  generalize (d.create (.text words)).1 = c at planted created
  generalize (d.create (.text words)).2 = d₁ at planted created
  have kept : ∀ y n, d.view y = some n → d₁.view y = some n := fun y n there =>
    planted.trades.kept there (by simp)
  have fresh : d.view c = none := planted.trades.fresh c (by simp) (by simp)
  have other : x ≠ c := by
    rintro rfl
    rw [fresh] at node
    cases node
  have text : d₁.view c = some { data := .text words, parent := none, children := [] } :=
    planted.stands.top
  obtain ⟨d₂, take, view⟩ := takeFor_solid (kept x _ node) rfl text nofun
    (h.rooted.of_parents fun y n there => ⟨n, kept y n there, rfl⟩)
    (h.rooted.not_above_new kept fresh) (detach_root text rfl) text
  have node₂ : d₂.view x = some { data := .element tag own, parent, children := [] } := by
    rw [view, adopt_apply (kept x _ node)]
    simp [other]
  have text₂ : d₂.view c = some { data := .text words, parent := some x, children := [] } := by
    rw [view, adopt_apply text]
    simp
  obtain ⟨d', linked, view'⟩ := modifyNode_view (fun n => { n with children := n.children ++ [c] }) node₂
  have appended : append x c d₁ = .ok () d' := (bind_ok take).trans linked
  have accounted := lasting_accounted.append x c d₁ planted.trades.accounted
  rw [after_ok appended] at accounted
  have text' : d'.view c = some { data := .text words, parent := some x, children := [] } := by
    rw [view', alter_of_ne _ _ other.symm, text₂]
  refine ⟨d', (bind_ok created).trans appended, accounted, h.rooted.of_parents fun y n there => ?_,
    parent, c, ?_, ⟨text', trivial⟩, trivial⟩
  · have off : y ≠ c := by
      rintro rfl
      rw [fresh] at there
      cases there
    have taken : d₂.view y = some n := by
      rw [view, adopt_apply (kept y n there)]
      simp [off]
    rw [view']
    by_cases same : y = x
    · subst same
      exact ⟨_, alter_self _ taken, rfl⟩
    · exact ⟨n, (alter_of_ne _ _ same).trans taken, rfl⟩
  · rw [view', alter_self _ node₂]
    rfl

/-- The text of an element gives way to another one. -/
theorem setText {old : String} (h : Showing d x tag own (some old)) (words : String) :
    ∃ c d', d.firstChild? x = .ok (some c) ∧ d.data c = .ok (.text old) ∧
      Document.setText c words d = .ok () d' ∧ Showing d' x tag own (some words) := by
  obtain ⟨parent, c, node, ⟨text, -⟩, -⟩ := h.stands
  have other : x ≠ c := by
    rintro rfl
    exact (h.rooted.not_above_parent text rfl) .self
  have run := setText_ok text rfl words
  have accounted := lasting_accounted.setText c words d h.accounted
  rw [after_ok run] at accounted
  refine ⟨c, _, ?_, data_eq_ok text, run, accounted, h.rooted.of_parents fun y n there => ?_, parent, c, ?_,
    ⟨?_, trivial⟩, trivial⟩
  · simp [Document.firstChild?, children_eq_ok node, bind, Except.bind, pure, Except.pure, NodeTree.label]
  · rw [view_modify]
    by_cases same : y = c
    · subst same
      exact ⟨_, alter_self _ there, rfl⟩
    · exact ⟨n, (alter_of_ne _ _ same).trans there, rfl⟩
  · rw [view_modify, alter_of_ne _ _ other, node]
    rfl
  · rw [view_modify, alter_self _ text]

theorem showText (h : Showing d x tag own shown) (words : String) :
    ∃ d', Handler.showText x words d = .ok () d' ∧ Showing d' x tag own (some words) := by
  cases shown with
  | none =>
      obtain ⟨d', run, after⟩ := h.appendText words
      obtain ⟨parent, c, node, _⟩ := h.stands
      have first : d.firstChild? x = .ok none := by
        simp [Document.firstChild?, children_eq_ok node, bind, Except.bind, pure, Except.pure]
      refine ⟨d', ?_, after⟩
      unfold Handler.showText
      rw [bind_ok (ask_ok first)]
      exact run
  | some old =>
      obtain ⟨c, d', first, text, run, after⟩ := h.setText words
      refine ⟨d', ?_, after⟩
      unfold Handler.showText
      rw [bind_ok (ask_ok first)]
      dsimp only
      rw [bind_ok (ask_ok text)]
      exact run

/-- A write changes what is shown or the attributes, and is not refused. -/
theorem write (h : Showing d x tag own shown) {write : TextWrite} (fits : write.Fits own) :
    ∃ d', write.run x d = .ok () d' ∧ Showing d' x tag (write.dress own) (write.shown?.or shown) := by
  cases write with
  | escaped value =>
      obtain ⟨d', run, after⟩ := h.showText value.text
      exact ⟨d', Writing.edit_ok run, after⟩
  | result identity value =>
      obtain ⟨d', run, after⟩ := h.showText value.text
      refine ⟨d', ?_, after⟩
      rw [TextWrite.run, Handler.function_some x rfl]
      exact Writing.edit_ok run
  | attr kind name value =>
      obtain ⟨d', run, after⟩ := h.setAttributeValue name (kind.attributeValue value)
      refine ⟨d', ?_, after⟩
      rw [TextWrite.run, RenderKind.handler_attr fits.1, Writing.edit_ok run]

theorem writes (writes : List TextWrite) (h : Showing d x tag own shown)
    (fits : ∀ write ∈ writes, write.Fits own) :
    ∃ d', writes.forM (·.run x) d = .ok () d' ∧
      Showing d' x tag (TextWrite.dressAll writes own) ((TextWrite.lastShown? writes).or shown) := by
  induction writes generalizing d own shown with
  | nil => exact ⟨d, rfl, h⟩
  | cons write writes ih =>
      obtain ⟨here, others⟩ := List.forall_mem_cons.1 fits
      obtain ⟨d₁, run, after⟩ := h.write here
      obtain ⟨d', more, last⟩ := ih after fun w mem => (others w mem).congr (TextWrite.names_dress here)
      refine ⟨d', ?_, ?_⟩
      · exact (bind_ok run).trans more
      · rw [TextWrite.lastShown?_cons, Option.or_assoc]
        exact last

/-- The tree of the element. -/
theorem tree (h : Showing d x tag own shown) : ∃ children, HoldsText children (shown.getD "") ∧
    d.tree x = .ok (.node x (.element tag own) children) := by
  obtain ⟨parent, c, stands⟩ := h.stands
  refine ⟨_, ?_, tree_of_stands stands ?_⟩
  · cases shown with
    | none => exact .inl ⟨rfl, rfl⟩
    | some words => exact .inr ⟨c, rfl⟩
  · cases shown with
    | none => simp
    | some words =>
        obtain ⟨-, ⟨text, -⟩, -⟩ := stands
        have other : x ≠ c := by
          rintro rfl
          exact (h.rooted.not_above_parent text rfl) .self
        simp [other]

end Showing

/-- Whatever values are shown as text in an element and put into its attributes, its markup is read
as the open tag with the attributes in their order, the text that was written last, and the closing
tag. -/
theorem tokenize_writes {d : Document} (accounted : d.Accounted) {x : NodeId} {tag : String}
    {entries : List (String × Value)} {parent : Option NodeId}
    (element : d.node? x = some { data := .element tag entries, parent, children := [] })
    (rooted : d.view.Rooted x) (tagName : IsTagName tag)
    (other : tag ∉ "script" :: "style" :: TagRules.voidNames)
    (names : ∀ entry ∈ entries, IsAttributeName entry.1) (writes : List TextWrite)
    (fits : ∀ write ∈ writes, write.Fits entries)
    (newline : tag = "pre" ∨ tag = "textarea" →
      ∀ cs, ((TextWrite.lastShown? writes).getD "").toList ≠ '\n' :: cs) :
    ∃ d' own markup tokens, writes.forM (·.run x) d = .ok () d' ∧
      d'.attributes x = .ok own ∧ own = TextWrite.dressAll writes entries ∧
      own.map Prod.fst = entries.map Prod.fst ∧
      d'.serialize x = .ok markup ∧ tokenize markup = (tokens, []) ∧
      tokens.map Token.lexeme =
        .openTag tag (own.map fun entry => (entry.1, entry.2.text)) false ::
          contentLexemes ((TextWrite.lastShown? writes).getD "").toList ++ [.closeTag tag] := by
  have start : Showing d x tag entries none := ⟨accounted, rooted, parent, x, element, trivial⟩
  obtain ⟨d', run, after⟩ := start.writes writes fits
  rw [Option.or_none] at after
  obtain ⟨children, holds, read⟩ := after.tree
  obtain ⟨_, _, node, _⟩ := after.stands
  have same := TextWrite.names_dressAll writes fits
  obtain ⟨asVoid, asRaw, asPre⟩ := rules_named tagName.plain
  simp only [List.mem_cons, not_or] at other
  obtain ⟨notScript, notStyle, notVoid⟩ := other
  have named : ∀ entry ∈ TextWrite.dressAll writes entries, AttributeName entry.1.toList := by
    intro entry mem
    have listed : entry.1 ∈ entries.map Prod.fst := same ▸ List.mem_map_of_mem mem
    obtain ⟨own, there, named⟩ := List.mem_map.1 listed
    exact named ▸ (names own there).attributeName
  obtain ⟨tokens, tokenized, lexemes⟩ := tokenize_print_element x holds tagName.plain named
    (Bool.eq_false_iff.2 fun void => notVoid (asVoid void))
    (fun raw => (asRaw raw).elim notScript notStyle) fun skips => newline (asPre skips)
  refine ⟨d', _, _, tokens, run, known_attributes node, rfl, same, ?_, tokenized, lexemes⟩
  simp [serialize, read, bind, Except.bind, pure, Except.pure]

/-- Quotes, a closing tag and a reference, in an element into which line feeds are written first. -/
theorem tokenize_writes_pre :
    let d := Operation.run { name := "", strict := false }
      [.createElement "pre", .setAttribute ⟨0⟩ "title" "a"]
    let writes : List TextWrite := [.escaped (.string "\n"), .attr .literal "title" (.string "\" x='&amp;'>"),
      .result 0 (.string "</pre>&lt;")]
    ∃ d' own markup tokens, writes.forM (·.run ⟨0⟩) d = .ok () d' ∧ d'.attributes ⟨0⟩ = .ok own ∧
      d'.serialize ⟨0⟩ = .ok markup ∧ tokenize markup = (tokens, []) ∧
      tokens.map Token.lexeme = [.openTag "pre" [("title", "\" x='&amp;'>")] false, .text "</pre>&lt;",
        .closeTag "pre"] := by
  intro d writes
  have accounted : d.Accounted :=
    Operation.lasting_run lasting_accounted _ (accounted_empty "" false)
  have element : d.node? ⟨0⟩ = some
      { data := .element "pre" [("title", .string "a")], parent := none, children := [] } := rfl
  have read : (tokenize "<pre title>").1.map Token.lexeme = [.openTag "pre" [("title", "")] false] := by
    decide +kernel
  obtain ⟨token, mem, lexeme⟩ := List.mem_map.1 (read ▸ List.mem_singleton_self _)
  have tagName : IsTagName "pre" := ⟨_, token, mem, _, _, lexeme⟩
  have name : IsAttributeName "title" := ⟨_, token, mem, _, _, _, lexeme, List.mem_singleton_self _⟩
  have fits : ∀ write ∈ writes, write.Fits [("title", .string "a")] :=
    List.forall_mem_cons.2 ⟨trivial, List.forall_mem_cons.2 ⟨⟨rfl, List.mem_singleton_self _⟩,
      List.forall_mem_singleton.2 trivial⟩⟩
  have shown : ((TextWrite.lastShown? writes).getD "").toList = "</pre>&lt;".toList := rfl
  obtain ⟨d', own, markup, tokens, run, attributes, dressed, -, written, tokenized, lexemes⟩ :=
    tokenize_writes accounted element (.top element rfl) tagName (by decide) (by simpa using name) writes
      fits (fun _ cs begins => by rw [shown] at begins; cases begins)
  obtain rfl : own = [("title", .string "\" x='&amp;'>")] := dressed
  rw [shown] at lexemes
  exact ⟨d', _, markup, tokens, run, attributes, written, tokenized, lexemes⟩

end Stencil
