import Stencil.Proofs.Compiled.Artifact
import Stencil.Proofs.Script.Literal

/-! # Reading modules

A module that exports templates is read back as the path of its runtime and the templates
under their names, in order. Of a template, its script says the slots with all bindings and
repeated templates, the markup in one piece and the iteration expression.
-/

namespace Stencil

/-- The strings in a binding. -/
def Binding.strings (b : Binding) : List String :=
  [b.kind.tag, b.key] ++ b.attr.toList ++ b.block.toList

/-- The strings of which markup is made. -/
def Skeleton.strings : Skeleton → List String
  | plain markup => [markup]
  | split parts => parts

namespace CompiledTemplate

mutual

/-- The template as scripts say it: each kind as the one behind its tag, markup in one piece. -/
def plainForm : CompiledTemplate → CompiledTemplate
  | ⟨slots, skeleton, expression⟩ => ⟨plainSlots slots, .plain skeleton.markup, expression⟩

def plainSlots : List (List (Reference CompiledTemplate)) → List (List (Reference CompiledTemplate))
  | [] => []
  | slot :: slots => plainReferences slot :: plainSlots slots

def plainReferences : List (Reference CompiledTemplate) → List (Reference CompiledTemplate)
  | [] => []
  | .binding b :: rs => .binding { b with kind := .ofTag b.kind.tag } :: plainReferences rs
  | .template t :: rs => .template t.plainForm :: plainReferences rs

end

mutual

/-- No marker is torn in the markup of a template and of those that it repeats. -/
def Untorn : CompiledTemplate → Prop
  | ⟨slots, skeleton, _⟩ => ¬Script.torn <:+: skeleton.markup.toList ∧ UntornSlots slots

def UntornSlots : List (List (Reference CompiledTemplate)) → Prop
  | [] => True
  | slot :: slots => UntornReferences slot ∧ UntornSlots slots

def UntornReferences : List (Reference CompiledTemplate) → Prop
  | [] => True
  | .binding _ :: rs => UntornReferences rs
  | .template t :: rs => t.Untorn ∧ UntornReferences rs

end

mutual

/-- The strings in a template and in those that it repeats. -/
def strings : CompiledTemplate → List String
  | ⟨slots, skeleton, expression⟩ => slotStrings slots ++ skeleton.strings ++ expression.toList

def slotStrings : List (List (Reference CompiledTemplate)) → List String
  | [] => []
  | slot :: slots => referenceStrings slot ++ slotStrings slots

def referenceStrings : List (Reference CompiledTemplate) → List String
  | [] => []
  | .binding b :: rs => b.strings ++ referenceStrings rs
  | .template t :: rs => t.strings ++ referenceStrings rs

end

end CompiledTemplate

namespace Script

open CompiledTemplate (plainSlots plainReferences UntornSlots UntornReferences)

/-! ## Templates of expressions -/

/-- The text under a name, which must not occur twice. -/
def property? (name : String) (entries : List (String × Expression)) : Option (Option String) :=
  match entries.filter (·.1 == name) with
  | [] => some none
  | [(_, .text s)] => some (some s)
  | _ => none

/-- The binding that an object describes. It has no other properties. -/
def binding? (entries : List (String × Expression)) : Option Binding := do
  if entries.all fun entry => ["tp", "key", "at", "bn"].contains entry.1 then
    return {
      kind := .ofTag (← (← property? "tp" entries))
      key := ← (← property? "key" entries)
      attr := ← property? "at" entries
      block := ← property? "bn" entries }
  else none

/-- The arguments behind slots and markup: an iteration expression, or none. -/
def expression? : List Expression → Option (Option String)
  | [] => some none
  | [.text s] => some (some s)
  | _ => none

mutual

/-- The template that an expression makes. -/
def template? : Expression → Option CompiledTemplate
  | .new className (.array slots :: markup :: more) => do
      if className = "Template" then
        return ⟨← slots? slots, .plain (← markup.markup?), ← expression? more⟩
      else none
  | _ => none

def slots? : List Expression → Option (List (List (Reference CompiledTemplate)))
  | [] => some []
  | .array references :: slots => do return (← references? references) :: (← slots? slots)
  | _ :: _ => none

def references? : List Expression → Option (List (Reference CompiledTemplate))
  | [] => some []
  | .object entries :: es => do return .binding (← binding? entries) :: (← references? es)
  | e :: es => do return .template (← template? e) :: (← references? es)

end

theorem references?_cons {e : Expression} {t : CompiledTemplate} (makes : template? e = some t)
    (es : List Expression) :
    references? (e :: es) = (references? es).map fun rs => .template t :: rs := by
  cases e with
  | object entries => cases makes
  | text s => cases makes
  | array items => cases makes
  | new className items =>
      rw [references?, makes]
      · cases references? es <;> rfl
      · simp

/-! ## Bindings -/

theorem entryName?_run {name : List Char} (some_name : name ≠ []) (named : name.all isNameChar = true)
    (rest : List Char) : entryName? (name ++ ':' :: rest) = some (String.ofList name, rest) := by
  have run := name?_run some_name named (show isNameChar ':' = false by decide) rest
  cases name with
  | nil => exact (some_name rfl).elim
  | cons c name =>
      have first : isNameChar c = true := List.all_eq_true.1 named c List.mem_cons_self
      have solid : Json.isSpace c = false := by
        rw [Bool.eq_false_iff]
        intro space
        simp only [Json.isSpace, Bool.or_eq_true, beq_iff_eq] at space
        rcases space with ((rfl | rfl) | rfl) | rfl <;> exact absurd first (by decide)
      rw [List.cons_append] at run ⊢
      rw [entryName?, Json.skipSpace_cons solid]
      split
      · rename_i same
        cases same
        exact absurd first (by decide)
      · rename_i same
        cases same
        exact absurd first (by decide)
      · simp [run, mark?_self (show Json.isSpace ':' = false from rfl)]

theorem readsEntry_property (name : String)
    (named : name.toList ≠ [] ∧ name.toList.all isNameChar = true) (value : String) :
    ReadsEntry (name ++ ":" ++ Json.quote value).toList (name, .text value) := by
  refine ⟨name.toList ++ [':'], (Json.quote value).toList, by simp, fun rest => ?_, reads_quote value, by simp⟩
  have run := entryName?_run named.1 named.2 rest
  rw [String.ofList_toList] at run
  rw [List.append_assoc]
  exact run

theorem entryName?_quote (name : String) (rest : List Char) :
    entryName? ((Json.quote name).toList ++ ':' :: rest) = some (name, rest) := by
  rw [Json.quote_toList, ← escapedIn_double, List.append_assoc, List.cons_append, entryName?,
    Json.skipSpace_cons rfl]
  simp [readText?_escapedIn (.inl rfl), readText?_closed, mark?_self (show Json.isSpace ':' = false from rfl)]

/-- The entries of an optional property. -/
def propertyEntries (name : String) (value : Option String) : List (String × Expression) :=
  value.toList.map fun s => (name, .text s)

/-- The entries of a binding. -/
def entriesOf (b : Binding) : List (String × Expression) :=
  [("tp", .text b.kind.tag), ("key", .text b.key)] ++ propertyEntries "at" b.attr ++
    propertyEntries "bn" b.block

theorem reads_property (name : String)
    (named : name.toList ≠ [] ∧ name.toList.all isNameChar = true) (value : Option String) :
    List.Forall₂ ReadsEntry ((property name value).map String.toList) (propertyEntries name value) := by
  cases value with
  | none => exact .nil
  | some s => exact .cons (readsEntry_property name named s) .nil

theorem reads_binding (b : Binding) : Reads (binding b).toList (.object (entriesOf b)) := by
  have kind := readsEntry_property "tp" (by decide) b.kind.tag
  have key := readsEntry_property "key" (by decide) b.key
  have rest := List.rel_append (reads_property "at" (by decide) b.attr)
    (reads_property "bn" (by decide) b.block)
  have reads := reads_object Json.blank_nil Json.blank_nil (.cons kind (.cons key rest))
  simpa [binding, entriesOf, String.toList_intercalate] using reads

theorem binding?_entriesOf (b : Binding) :
    binding? (entriesOf b) = some { b with kind := .ofTag b.kind.tag } := by
  obtain ⟨kind, key, attr, block⟩ := b
  cases attr <;> cases block <;> simp [entriesOf, propertyEntries, binding?, property?]

/-! ## Templates -/

theorem template_toList (slots : List (List (Reference CompiledTemplate))) (skeleton : Skeleton)
    (expression : Option String) :
    (template ⟨slots, skeleton, expression⟩).toList =
      ['n', 'e', 'w', ' '] ++ "Template".toList ++ '(' :: [','].intercalate
        (('[' :: [','].intercalate ((slotTexts slots).map String.toList) ++ [']']) ::
          (markupLiteral skeleton.markup).toList ::
            expression.toList.map fun s => (Json.quote s).toList) ++ [')'] := by
  have written : template ⟨slots, skeleton, expression⟩ =
      "new Template([" ++ String.intercalate "," (slotTexts slots) ++ "]," ++
        markupLiteral skeleton.markup ++ expressionArgument expression ++ ")" := rfl
  rw [written]
  cases expression <;>
    simp [expressionArgument, String.toList_intercalate, List.intercalate_cons_cons]

mutual

/-- The script of a template is read as an expression that makes it. -/
theorem reads_template : (t : CompiledTemplate) → t.Untorn →
    ∃ e, Reads (template t).toList e ∧ template? e = some t.plainForm
  | ⟨slots, skeleton, expression⟩, untorn => by
      obtain ⟨items, texts, made⟩ := reads_slots slots untorn.2
      obtain ⟨markup, literal, denotes⟩ := reads_markupLiteral untorn.1
      have last : List.Forall₂ Reads (expression.toList.map fun s => (Json.quote s).toList)
          (expression.toList.map Expression.text) := by
        cases expression with
        | none => exact .nil
        | some s => exact .cons (reads_quote s) .nil
      refine ⟨.new "Template" (.array items :: markup :: expression.toList.map Expression.text), ?_, ?_⟩
      · have named : "Template".toList ≠ [] ∧ "Template".toList.all isNameChar = true := by decide
        have reads := reads_new named.1 named.2
          (.cons (reads_array texts) (.cons literal last))
        rw [template_toList]
        rwa [String.ofList_toList] at reads
      · have given : expression? (expression.toList.map Expression.text) = some expression := by
          cases expression <;> rfl
        simp [template?, made, denotes, given, CompiledTemplate.plainForm]

theorem reads_slots : (slots : List (List (Reference CompiledTemplate))) → UntornSlots slots →
    ∃ items, List.Forall₂ Reads ((slotTexts slots).map String.toList) items ∧
      slots? items = some (plainSlots slots)
  | [], _ => ⟨[], .nil, rfl⟩
  | slot :: slots, untorn => by
      obtain ⟨references, texts, made⟩ := reads_references slot untorn.1
      obtain ⟨items, more, others⟩ := reads_slots slots untorn.2
      refine ⟨.array references :: items, ?_, ?_⟩
      · have reads := reads_array texts
        refine .cons ?_ more
        simpa [String.toList_intercalate] using reads
      · simp [slots?, made, others, plainSlots]

theorem reads_references : (references : List (Reference CompiledTemplate)) →
    UntornReferences references →
    ∃ items, List.Forall₂ Reads ((referenceTexts references).map String.toList) items ∧
      references? items = some (plainReferences references)
  | [], _ => ⟨[], .nil, rfl⟩
  | .binding b :: references, untorn => by
      obtain ⟨items, texts, made⟩ := reads_references references untorn
      refine ⟨.object (entriesOf b) :: items, .cons (reads_binding b) texts, ?_⟩
      simp [references?, binding?_entriesOf, made, plainReferences]
  | .template t :: references, untorn => by
      obtain ⟨e, reads, makes⟩ := reads_template t untorn.1
      obtain ⟨items, texts, made⟩ := reads_references references untorn.2
      refine ⟨e :: items, .cons reads texts, ?_⟩
      rw [references?_cons makes, made]
      rfl

end

/-! ## Lines -/

/-- The text of lines, each with its end. -/
def linesText (lines : List Line) : List Char := lines.flatMap fun l => l.text.toList ++ ['\n']

theorem print_of_ne {part : String} (some_part : part.toList ≠ []) (n indent : Nat)
    (parts : List String) (earlier : List Line) :
    Lines.print part { current := ⟨n, parts⟩, earlier, indent } =
      { current := ⟨n, parts ++ [part]⟩, earlier, indent } := by
  rw [Lines.print, if_neg]
  simpa using some_part

theorem intercalate_lines (lines : List Line) (some_line : lines ≠ []) :
    ['\n'].intercalate (lines.map fun l => l.text.toList) ++ ['\n'] = linesText lines := by
  induction lines with
  | nil => exact (some_line rfl).elim
  | cons l lines ih =>
      cases lines with
      | nil => simp [linesText]
      | cons next lines =>
          have further := ih (by simp)
          rw [List.map_cons] at further
          rw [List.map_cons, List.map_cons, List.intercalate_cons_cons, List.append_assoc, further]
          simp [linesText]

/-- The text of all lines when the last of them has been ended. -/
theorem source_ended {ls : Lines} (ended : ls.current.parts = []) (some_line : ls.earlier ≠ []) :
    (ls.source ++ "\n").toList = linesText ls.earlier.reverse := by
  have whole := intercalate_lines ls.earlier.reverse (by simpa using some_line)
  rw [← whole]
  simp [Lines.source, Line.isEmpty, ended, String.toList_intercalate, Function.comp_def]

/-! ## Exports -/

/-- An exported template behind its name. -/
def entryText (entry : String × CompiledTemplate) : List Char :=
  (Json.quote entry.1).toList ++ ':' :: ' ' :: (template entry.2).toList

/-- The lines for exported templates. -/
def entryLines : Bundle → List Line
  | [] => []
  | (name, t) :: rest =>
      ⟨1, [Json.quote name, ": ", template t] ++ if rest.isEmpty then [] else [","]⟩ :: entryLines rest

theorem template_ne_nil (t : CompiledTemplate) : (template t).toList ≠ [] := by
  obtain ⟨slots, skeleton, expression⟩ := t
  rw [template_toList]
  simp

theorem exports_eq (bundle : Bundle) (earlier : List Line) :
    exports bundle { current := ⟨1, []⟩, earlier, indent := 1 } =
      { current := ⟨1, []⟩, earlier := (entryLines bundle).reverse ++ earlier, indent := 1 } := by
  induction bundle generalizing earlier with
  | nil => rfl
  | cons entry rest ih =>
      obtain ⟨name, t⟩ := entry
      have quoted : (Json.quote name).toList ≠ [] := by simp [Json.quote_toList]
      have colon : (": ").toList ≠ [] := by decide
      have comma : (",").toList ≠ [] := by decide
      rw [exports, print_of_ne quoted, print_of_ne colon, print_of_ne (template_ne_nil t)]
      cases rest with
      | nil => rfl
      | cons next rest =>
          have line := ih (⟨1, [Json.quote name, ": ", template t, ","]⟩ :: earlier)
          rw [List.isEmpty_cons, if_neg Bool.false_ne_true, Lines.println, print_of_ne comma]
          refine line.trans ?_
          simp [entryLines]

theorem linesText_entryLines (bundle : Bundle) (some_entry : bundle ≠ []) :
    linesText (entryLines bundle) =
      [' ', ' '] ++ [',', '\n', ' ', ' '].intercalate (bundle.map entryText) ++ ['\n'] := by
  induction bundle with
  | nil => exact (some_entry rfl).elim
  | cons entry rest ih =>
      obtain ⟨name, t⟩ := entry
      cases rest with
      | nil =>
          simp [linesText, entryLines, entryText, Line.text, Line.isEmpty]
      | cons next rest =>
          have further := ih (by simp)
          have first : linesText (entryLines ((name, t) :: next :: rest)) =
              [' ', ' '] ++ entryText (name, t) ++ [',', '\n'] ++ linesText (entryLines (next :: rest)) := by
            simp [linesText, entryLines, entryText, Line.text, Line.isEmpty]
          rw [first, further]
          simp [List.intercalate_cons_cons]

/-! ## Modules -/

/-- What stands in front of the path of the runtime. -/
def prologue : List Char := "\"use strict\";\nvar Template = require(".toList

/-- What stands between the path of the runtime and the exported object. -/
def assignment : List Char := ");\nmodule.exports = ".toList

/-- The templates under their names in an object. -/
def bundle? : List (String × Expression) → Option Bundle
  | [] => some []
  | (name, e) :: entries => do return (name, ← template? e) :: (← bundle? entries)

/-- The path of the runtime and the templates that a module exports. Behind the exported object
only the end of its line follows. -/
def module? (text : String) : Option (String × Bundle) := do
  let rest ← Text.after? prologue text.toList
  let (path, rest) ← read? rest
  let rest ← Text.after? assignment rest
  let (exported, rest) ← read? rest
  match path, exported, rest with
  | .text path, .object entries, [';', '\n'] => return (path, ← bundle? entries)
  | _, _, _ => none

/-- The object that a module exports. -/
def exported (bundle : Bundle) : List Char := '{' :: '\n' :: linesText (entryLines bundle) ++ ['}']

/-- The lines in front of the entries. -/
def openingLines (runtime : String) : List Line :=
  [⟨0, ["\"use strict\";"]⟩, ⟨0, ["var Template = require(" ++ Json.quote runtime ++ ");"]⟩,
    ⟨0, ["module.exports = \x7b"]⟩]

/-- All lines of a module. -/
def moduleLines (runtime : String) (bundle : Bundle) : List Line :=
  openingLines runtime ++ entryLines bundle ++ [⟨0, ["\x7d;"]⟩]

theorem moduleWith_lines (runtime : String) (bundle : Bundle) :
    (moduleWith runtime bundle).toList = linesText (moduleLines runtime bundle) := by
  have required : ("var Template = require(" ++ Json.quote runtime ++ ");").toList ≠ [] := by
    rw [String.toList_append, String.toList_append]
    exact List.append_ne_nil_of_left_ne_nil (by simp [Json.quote_toList]) _
  have opened : ((((Lines.start 0).println "\"use strict\";").println
      ("var Template = require(" ++ Json.quote runtime ++ ");")).println
        "module.exports = \x7b").increase =
      { current := ⟨1, []⟩, earlier := (openingLines runtime).reverse, indent := 1 } := by
    rw [Lines.start, Lines.println, print_of_ne (by decide), Lines.println, Lines.endLine,
      print_of_ne required, Lines.println, Lines.endLine, print_of_ne (by decide)]
    rfl
  have closed (earlier : List Line) :
      (Lines.decrease { current := ⟨1, []⟩, earlier, indent := 1 }).println "\x7d;" =
        { current := ⟨0, []⟩, earlier := ⟨0, ["\x7d;"]⟩ :: earlier, indent := 0 } := by
    have empty : Lines.decrease { current := ⟨1, []⟩, earlier, indent := 1 } =
        { current := ⟨0, []⟩, earlier, indent := 0 } := rfl
    rw [empty, Lines.println, print_of_ne (by decide)]
    rfl
  have lines : moduleWith runtime bundle = Lines.source
      { current := ⟨0, []⟩, earlier := (moduleLines runtime bundle).reverse, indent := 0 } ++ "\n" := by
    rw [moduleWith, opened, exports_eq, closed, moduleLines]
    simp
  rw [lines, source_ended rfl (by simp [moduleLines]), List.reverse_reverse]

theorem linesText_append (lines more : List Line) :
    linesText (lines ++ more) = linesText lines ++ linesText more :=
  List.flatMap_append

theorem moduleWith_toList (runtime : String) (bundle : Bundle) :
    (moduleWith runtime bundle).toList =
      prologue ++ ((Json.quote runtime).toList ++ (assignment ++ (exported bundle ++ [';', '\n']))) := by
  have text (part : String) : (Line.text ⟨0, [part]⟩) = part := by simp [Line.text, Line.isEmpty]
  have first : prologue = "\"use strict\";".toList ++ ['\n'] ++ "var Template = require(".toList := by
    decide
  have second : assignment ++ ['\x7b'] = ");".toList ++ ['\n'] ++ "module.exports = \x7b".toList := by
    decide
  have last : "\x7d;".toList = ['\x7d', ';'] := by decide
  have opened : linesText (openingLines runtime) =
      prologue ++ ((Json.quote runtime).toList ++ (assignment ++ ['\x7b'] ++ ['\n'])) := by
    rw [first, second, openingLines]
    simp only [linesText, List.flatMap_cons, List.flatMap_nil, text, String.toList_append,
      List.append_assoc, List.append_nil]
  have closed : linesText [⟨0, ["\x7d;"]⟩] = ['\x7d', ';', '\n'] := by
    rw [linesText, List.flatMap_singleton, text, last]
    rfl
  rw [moduleWith_lines, moduleLines, linesText_append, linesText_append, opened, closed]
  simp [exported]

theorem reads_exports (bundle : Bundle) (untorn : ∀ entry ∈ bundle, entry.2.Untorn) :
    ∃ entries, List.Forall₂ ReadsEntry (bundle.map entryText) entries ∧
      bundle? entries = some (bundle.map fun (name, t) => (name, t.plainForm)) := by
  induction bundle with
  | nil => exact ⟨[], .nil, rfl⟩
  | cons entry rest ih =>
      obtain ⟨name, t⟩ := entry
      obtain ⟨e, reads, makes⟩ := reads_template t (untorn _ List.mem_cons_self)
      obtain ⟨entries, texts, made⟩ := ih fun entry mem => untorn entry (List.mem_cons_of_mem _ mem)
      refine ⟨(name, e) :: entries, .cons ?_ texts, by simp [bundle?, makes, made]⟩
      have space : Json.Blank [' '] := by simp [Json.Blank, Json.isSpace]
      refine ⟨(Json.quote name).toList ++ [':'], ' ' :: (template t).toList, by simp, fun rest => ?_,
        reads.blank space, by simp [entryText]⟩
      rw [List.append_assoc]
      exact entryName?_quote name rest

theorem reads_exported (bundle : Bundle) (untorn : ∀ entry ∈ bundle, entry.2.Untorn) :
    ∃ entries, Reads (exported bundle) (.object entries) ∧
      bundle? entries = some (bundle.map fun (name, t) => (name, t.plainForm)) := by
  obtain ⟨entries, texts, made⟩ := reads_exports bundle untorn
  refine ⟨entries, ?_, made⟩
  have line : Json.Blank ['\n'] := by simp [Json.Blank, Json.isSpace]
  have indented : Json.Blank ['\n', ' ', ' '] := by simp [Json.Blank, Json.isSpace]
  by_cases some_entry : bundle = []
  · rw [some_entry] at texts ⊢
    exact reads_object Json.blank_nil line texts
  · have reads := reads_object indented line texts
    rw [exported, linesText_entryLines bundle some_entry]
    simpa using reads

/-- A module is read back as its runtime and its templates, if no marker is torn. -/
theorem module?_moduleWith (runtime : String) (bundle : Bundle)
    (untorn : ∀ entry ∈ bundle, entry.2.Untorn) :
    module? (moduleWith runtime bundle) =
      some (runtime, bundle.map fun (name, t) => (name, t.plainForm)) := by
  obtain ⟨entries, reads, made⟩ := reads_exported bundle untorn
  rw [module?, moduleWith_toList]
  simp [Text.after?_append, reads_quote runtime _, reads _, made]

/-! ## Legible strings -/

/-- No control stands in the text but tabs and the ends of lines. -/
def Legible (s : String) : Prop := ∀ c ∈ s.toList, 0x20 ≤ c.toNat ∨ c ∈ ['\t', '\n', '\r']

instance (s : String) : Decidable (Legible s) :=
  List.decidableBAll (fun c : Char => 0x20 ≤ c.toNat ∨ c ∈ ['\t', '\n', '\r']) s.toList

theorem untorn_markup {skeleton : Skeleton} (legible : ∀ s ∈ skeleton.strings, Legible s) :
    ¬torn <:+: skeleton.markup.toList := by
  intro inside
  have control : '\x1d' ∈ skeleton.markup.toList := inside.mem List.mem_cons_self
  have illegible {s : String} (mem : '\x1d' ∈ s.toList) : ¬Legible s := fun legible =>
    absurd (legible _ mem) (by decide)
  cases skeleton with
  | plain markup => exact illegible control (legible markup List.mem_cons_self)
  | split parts =>
      rw [Skeleton.markup, String.toList_ofList] at control
      rcases Text.mem_joinWith control with mem | ⟨piece, here, mem⟩
      · exact absurd mem (by decide)
      · obtain ⟨part, there, rfl⟩ := List.mem_map.1 here
        exact illegible mem (legible part there)

mutual

theorem untorn_of_legible : (t : CompiledTemplate) → (∀ s ∈ t.strings, Legible s) → t.Untorn
  | ⟨slots, skeleton, expression⟩, legible => by
      simp only [CompiledTemplate.strings, List.mem_append] at legible
      exact ⟨untorn_markup fun s mem => legible s (.inl (.inr mem)),
        untornSlots_of_legible slots fun s mem => legible s (.inl (.inl mem))⟩

theorem untornSlots_of_legible : (slots : List (List (Reference CompiledTemplate))) →
    (∀ s ∈ CompiledTemplate.slotStrings slots, Legible s) → UntornSlots slots
  | [], _ => trivial
  | slot :: slots, legible => by
      simp only [CompiledTemplate.slotStrings, List.mem_append] at legible
      exact ⟨untornReferences_of_legible slot fun s mem => legible s (.inl mem),
        untornSlots_of_legible slots fun s mem => legible s (.inr mem)⟩

theorem untornReferences_of_legible : (references : List (Reference CompiledTemplate)) →
    (∀ s ∈ CompiledTemplate.referenceStrings references, Legible s) → UntornReferences references
  | [], _ => trivial
  | .binding b :: references, legible => by
      simp only [CompiledTemplate.referenceStrings, List.mem_append] at legible
      exact untornReferences_of_legible references fun s mem => legible s (.inr mem)
  | .template t :: references, legible => by
      simp only [CompiledTemplate.referenceStrings, List.mem_append] at legible
      exact ⟨untorn_of_legible t fun s mem => legible s (.inl mem),
        untornReferences_of_legible references fun s mem => legible s (.inr mem)⟩

end

/-- The module of a bundle of legible strings is read back as its runtime and its templates under
their names, in order. -/
theorem module?_legible (runtime : String) (bundle : Bundle)
    (legible : ∀ entry ∈ bundle, ∀ s ∈ entry.1 :: entry.2.strings, Legible s) :
    module? (moduleWith runtime bundle) =
      some (runtime, bundle.map fun (name, t) => (name, t.plainForm)) :=
  module?_moduleWith runtime bundle fun entry mem =>
    untorn_of_legible entry.2 fun s there => legible entry mem s (List.mem_cons_of_mem _ there)

theorem module?_legible_sample :
    module? (moduleWith "it's/template" [("zeta", .sample), ("\"alpha\"", .sample)]) =
      some ("it's/template",
        [("zeta", CompiledTemplate.sample.plainForm), ("\"alpha\"", CompiledTemplate.sample.plainForm)]) ∧
    CompiledTemplate.sample.plainForm.markup = "<ul class=\"a\\b\" data-poirot><br data-poirot></ul>" :=
  ⟨module?_legible "it's/template" [("zeta", .sample), ("\"alpha\"", .sample)] (by decide), by decide⟩

end Script

end Stencil
