import Stencil.Render.Rendering

/-! # What names mean

A scope is looked at only through the values that names have in it. A meaning is the function
from names to values; entering a region changes it at the names that the region brings, and a
dotted path is followed from it. The frames of a scope, searched from the innermost, give
such a function, and a path is resolved in the frames as it is followed from the meaning.
-/

namespace Stencil

/-- The value of each name that has one. -/
abbrev Meaning : Type := String → Option Value

/-- The member of an object under a name, or of an array at the index that a name writes. -/
def Value.member? : Value → String → Option Value
  | object fields, name => (fields.find? fun field => field.1 == name).map Prod.snd
  | array items, name => do items[← Number.index? name.toList]?
  | _, _ => none

/-- The parts of a path, separated by dots. -/
def pathParts (path : String) : List String := (path.toList.splitOn '.').map String.ofList

/-- The words of an expression, separated by white space. -/
def expressionWords (expression : String) : List String :=
  ((expression.toList.splitOnP Text.isWhite).filter fun word => word != []).map String.ofList

namespace Meaning

/-- A name means the member of the context that it names. -/
def ofContext (context : Value) : Meaning := context.member?

/-- Inside a region without an item name, the members of an item come before what is outside. -/
def opening (outer : Meaning) (item : Value) : Meaning := fun name =>
  match item.member? name with
  | some value => some value
  | none => outer name

/-- Inside a region with an item name, this name means the item. -/
def naming (outer : Meaning) (own : String) (item : Value) : Meaning := fun name =>
  if name = own then some item else outer name

/-- The value at the end of a path: its first part is a name, the others lead from member to
member. -/
def reach? (m : Meaning) (path : String) : Option Value :=
  match pathParts path with
  | [] => none
  | name :: members => do members.foldlM Value.member? (← m name)

end Meaning

/-! ## Pieces of a text -/

namespace Text

theorem splitOn_singleton_cons (c d : Char) (text : List Char) :
    splitOn [c] (d :: text) =
      if d = c then [] :: splitOn [c] text else (splitOn [c] text).modifyHead (List.cons d) := by
  rw [splitOn.eq_1 [c] (d :: text)]
  by_cases same : d = c
  · subst same
    simp [breakOn?, after?]
  · have other : after? [c] (d :: text) = none := by simp [after?, Ne.symm same]
    rw [if_neg same, splitOn.eq_1 [c] text, breakOn?, other]
    cases found : breakOn? [c] text with
    | none => rfl
    | some pair =>
        have shorter : pair.2.length < text.length := by
          rw [breakOn?_eq_some found]
          simp
          omega
        simp [shorter, Nat.lt_succ_of_lt shorter]

theorem splitOn_singleton (c : Char) (text : List Char) : splitOn [c] text = text.splitOn c := by
  induction text with
  | nil =>
      rw [splitOn]
      rfl
  | cons d text ih =>
      rw [splitOn_singleton_cons, ih, List.splitOn, List.splitOn, List.splitOnP_cons_eq_if_modifyHead]
      simp

/-- The words are the pieces between white space that are not empty. -/
theorem words_eq (cs : List Char) :
    words cs = (cs.splitOnP isWhite).filter fun word => word != [] := by
  have lead : ∀ text : List Char, ∃ rest, text.splitOnP isWhite = (leadingWord text).1 :: rest ∧
      (leadingWord text).2 = rest.filter fun word => word != [] := by
    intro text
    induction text with
    | nil => exact ⟨[], rfl, rfl⟩
    | cons c text ih =>
        obtain ⟨rest, pieces, later⟩ := ih
        by_cases white : isWhite c = true
        · refine ⟨(leadingWord text).1 :: rest, ?_, ?_⟩
          · rw [List.splitOnP_cons_eq_if_modifyHead, if_pos white, pieces]
            simp [leadingWord, white]
          · cases word : (leadingWord text).1 <;> simp [leadingWord, white, word, later]
        · refine ⟨rest, ?_, ?_⟩
          · rw [List.splitOnP_cons_eq_if_modifyHead, if_neg white, pieces]
            simp [leadingWord, white]
          · simp [leadingWord, white, later]
  obtain ⟨rest, pieces, later⟩ := lead cs
  rw [words, pieces]
  cases word : (leadingWord cs).1 <;> simp [word, later]

end Text

/-! ## Scopes and meanings -/

theorem Value.get?_eq (v : Value) (name : String) : v.get? name = v.member? name := by
  cases v with
  | object fields =>
      induction fields with
      | nil => rfl
      | cons field fields ih =>
          obtain ⟨key, value⟩ := field
          by_cases same : key = name
          · simp [get?, member?, same]
          · have other : (name == key) = false := by simp [Ne.symm same]
            simp only [get?, member?] at ih
            simp [get?, member?, List.lookup_cons, other, same, ih]
  | _ => rfl

/-- The words of an expression, one or two, are the source and the name of an item. -/
theorem Iteration.parse?_eq_some_iff {expression : String} {i : Iteration} :
    parse? expression = some i ↔ expressionWords expression = i.source :: i.itemName.toList := by
  obtain ⟨source, itemName⟩ := i
  rw [parse?, expressionWords, ← Text.words_eq]
  rcases Text.words expression.toList with _ | ⟨first, _ | ⟨second, _ | ⟨third, words⟩⟩⟩ <;>
    cases itemName <;> simp

theorem Iteration.isSome_parse?_iff {expression : String} :
    (parse? expression).isSome = true ↔ (expressionWords expression).length ∈ [1, 2] := by
  rw [parse?, expressionWords, ← Text.words_eq]
  rcases Text.words expression.toList with _ | ⟨first, _ | ⟨second, _ | ⟨third, words⟩⟩⟩ <;> simp

/-- What names mean inside a region for one of its items. -/
def Iteration.meaningFor (i : Iteration) (item : Value) (outer : Meaning) : Meaning :=
  match i.itemName with
  | some name => outer.naming name item
  | none => outer.opening item

namespace Scope

/-- What the names mean in a scope. -/
def meaning (scope : Scope) : Meaning := scope.lookup?

theorem meaning_ofContext (context : Value) : (ofContext context).meaning = .ofContext context := by
  funext name
  rw [meaning, lookup?, ofContext, List.findSome?_cons, Frame.lookup?, Value.get?_eq]
  cases found : context.member? name <;> simp [Meaning.ofContext, found]

theorem meaning_fields (item : Value) (scope : Scope) :
    meaning (.fields item :: scope) = scope.meaning.opening item := by
  funext name
  rw [meaning, lookup?, List.findSome?_cons, Frame.lookup?, Value.get?_eq, Meaning.opening]
  cases item.member? name <;> rfl

theorem meaning_named (own : String) (item : Value) (scope : Scope) :
    meaning (.named own item :: scope) = scope.meaning.naming own item := by
  funext name
  rw [meaning, lookup?, List.findSome?_cons, Frame.lookup?, Meaning.naming]
  by_cases same : name = own
  · rw [if_pos same.symm, if_pos same]
  · rw [if_neg (Ne.symm same), if_neg same]
    rfl

/-- The scope inside a region gives names the meaning that the region brings. -/
theorem meaning_scopeFor (i : Iteration) (item : Value) (scope : Scope) :
    (i.scopeFor item scope).meaning = i.meaningFor item scope.meaning := by
  obtain ⟨source, _ | name⟩ := i
  · exact meaning_fields item scope
  · exact meaning_named name item scope

/-- A path is resolved in the frames of a scope as it is followed from their meaning. -/
theorem resolve?_eq (scope : Scope) (path : String) :
    scope.resolve? path = scope.meaning.reach? path := by
  have member : Value.get? = Value.member? := funext fun v => funext (Value.get?_eq v)
  rw [resolve?, Meaning.reach?, pathParts, Text.splitOn_singleton, member]
  rfl

end Scope

end Stencil
