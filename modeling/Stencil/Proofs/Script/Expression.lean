import Stencil.Proofs.Json.Reading
import Stencil.Script.Module

/-! # Reading scripts

The expressions of which a script of templates is made: texts between quotes of either kind,
arrays, objects and new objects of a class. A reader takes an expression off the beginning of
a text. Between two items it wants exactly one comma, and none behind the last.
-/

namespace Stencil.Script

open Json (skipSpace isSpace Blank skipSpace_blank skipSpace_cons blank_nil)

inductive Expression where
  | text (s : String)
  | array (items : List Expression)
  /-- The values of an object under their names, in order. -/
  | object (entries : List (String × Expression))
  /-- A new object of a class. -/
  | new (className : String) (arguments : List Expression)
  deriving Inhabited

/-! ## Texts between quotes -/

/-- The character of an escape with one letter. -/
def escape? : Char → Option Char
  | '"' => some '"'
  | '\'' => some '\''
  | '\\' => some '\\'
  | 'b' => some '\x08'
  | 'f' => some '\x0c'
  | 'n' => some '\n'
  | 'r' => some '\r'
  | 't' => some '\t'
  | _ => none

/-- The next character of a text between quotes, and the rest. Lines end only by escapes. -/
def readChar? : List Char → Option (Char × List Char)
  | '\\' :: 'u' :: rest => Json.readUnit? rest
  | '\\' :: e :: rest => (escape? e).map fun c => (c, rest)
  | c :: rest => if c == '\\' || c == '\n' || c == '\r' then none else some (c, rest)
  | [] => none

/-- A text behind its opening quote, and the rest behind the closing one. -/
def readText? (quotation : Char) : List Char → Option (List Char × List Char)
  | [] => none
  | c :: cs =>
      if c = quotation then some ([], cs)
      else
        match readChar? (c :: cs) with
        | none => none
        | some (d, rest) =>
            if rest.length ≤ cs.length then
              (readText? quotation rest).map fun (more, rest) => (d :: more, rest)
            else none
termination_by cs => cs.length

/-! ## Expressions -/

/-- What begins an expression. -/
inductive Opening where
  | text (quotation : Char)
  | array
  | object
  | new (className : List Char)

def isNameChar (c : Char) : Bool := c.isAlphanum || c == '_' || c == '$'

/-- The rest behind a mark, if this comes next. -/
def mark? (c : Char) (cs : List Char) : Option (List Char) :=
  match skipSpace cs with
  | d :: rest => if d = c then some rest else none
  | [] => none

/-- A name, and the rest. -/
def name? (cs : List Char) : Option (List Char × List Char) :=
  match cs.takeWhile isNameChar with
  | [] => none
  | name => some (name, cs.dropWhile isNameChar)

/-- What begins the expression at the beginning of a text, and the rest. -/
def opening? (cs : List Char) : Option (Opening × List Char) :=
  match skipSpace cs with
  | '"' :: inside => some (.text '"', inside)
  | '\'' :: inside => some (.text '\'', inside)
  | '[' :: inside => some (.array, inside)
  | '{' :: inside => some (.object, inside)
  | 'n' :: 'e' :: 'w' :: ' ' :: named =>
      (name? named).bind fun (name, rest) => (mark? '(' rest).map fun inside => (.new name, inside)
  | _ => none

/-- The name of an entry with the colon behind it, and the rest. -/
def entryName? (cs : List Char) : Option (String × List Char) :=
  let found :=
    match skipSpace cs with
    | '"' :: inside => readText? '"' inside
    | '\'' :: inside => readText? '\'' inside
    | named => name? named
  found.bind fun (name, rest) => (mark? ':' rest).map fun rest => (String.ofList name, rest)

mutual

/-- An expression at the beginning of a text, and the rest. -/
def read? (cs : List Char) : Option (Expression × List Char) :=
  match opening? cs with
  | none => none
  | some (opening, inside) =>
      if inside.length < cs.length then
        match opening with
        | .text quotation =>
            (readText? quotation inside).map fun (s, rest) => (.text (String.ofList s), rest)
        | .array => (readList? ']' inside).map fun (items, rest) => (.array items, rest)
        | .object => (readFields? inside).map fun (entries, rest) => (.object entries, rest)
        | .new className =>
            (readList? ')' inside).map fun (items, rest) =>
              (.new (String.ofList className) items, rest)
      else none
termination_by (cs.length, 0)

/-- All items up to their closing bracket, and the rest behind it. -/
def readList? (closing : Char) (cs : List Char) : Option (List Expression × List Char) :=
  match mark? closing cs with
  | some rest => some ([], rest)
  | none => readItems? closing cs
termination_by (cs.length, 2)

/-- One item or more up to their closing bracket, and the rest behind it. -/
def readItems? (closing : Char) (cs : List Char) : Option (List Expression × List Char) :=
  match read? cs with
  | none => none
  | some (item, rest) =>
      match mark? closing rest, mark? ',' rest with
      | some rest, _ => some ([item], rest)
      | none, some rest =>
          if rest.length < cs.length then
            (readItems? closing rest).map fun (items, rest) => (item :: items, rest)
          else none
      | none, none => none
termination_by (cs.length, 1)

/-- All entries up to the closing brace, and the rest behind it. -/
def readFields? (cs : List Char) : Option (List (String × Expression) × List Char) :=
  match mark? '}' cs with
  | some rest => some ([], rest)
  | none => readEntries? cs
termination_by (cs.length, 2)

/-- One entry or more up to the closing brace, and the rest behind it. -/
def readEntries? (cs : List Char) : Option (List (String × Expression) × List Char) :=
  match entryName? cs with
  | none => none
  | some (name, inside) =>
      if inside.length < cs.length then
        match read? inside with
        | none => none
        | some (value, rest) =>
            match mark? '}' rest, mark? ',' rest with
            | some rest, _ => some ([(name, value)], rest)
            | none, some rest =>
                if rest.length < cs.length then
                  (readEntries? rest).map fun (entries, rest) => ((name, value) :: entries, rest)
                else none
            | none, none => none
      else none
termination_by (cs.length, 1)

end

/-! ## What a text reads as -/

/-- The text is read as the expression, whatever follows it. -/
def Reads (cs : List Char) (e : Expression) : Prop :=
  ∀ rest, read? (cs ++ rest) = some (e, rest)

/-- The text is read as the name of an entry and its value, whatever follows it. -/
def ReadsEntry (cs : List Char) (entry : String × Expression) : Prop :=
  ∃ head value, head ≠ [] ∧ (∀ rest, entryName? (head ++ rest) = some (entry.1, rest)) ∧
    Reads value entry.2 ∧ cs = head ++ value

section Marks

variable {space : List Char} {c d : Char} {cs rest : List Char}

theorem mark?_blank (h : Blank space) (c : Char) (cs : List Char) :
    mark? c (space ++ cs) = mark? c cs := by
  rw [mark?, skipSpace_blank h, mark?]

theorem mark?_self (solid : isSpace c = false) (cs : List Char) : mark? c (c :: cs) = some cs := by
  rw [mark?, skipSpace_cons solid]
  exact if_pos rfl

theorem mark?_other (solid : isSpace d = false) (other : d ≠ c) (cs : List Char) :
    mark? c (d :: cs) = none := by
  rw [mark?, skipSpace_cons solid]
  exact if_neg other

theorem skipSpace_of_mark? (h : mark? c cs = some rest) : skipSpace cs = c :: rest := by
  unfold mark? at h
  split at h
  · split at h
    · rename_i same
      cases h
      rw [← same]
      assumption
    · cases h
  · cases h

theorem opening?_blank (h : Blank space) (cs : List Char) : opening? (space ++ cs) = opening? cs := by
  rw [opening?, skipSpace_blank h, opening?]

theorem entryName?_blank (h : Blank space) (cs : List Char) :
    entryName? (space ++ cs) = entryName? cs := by
  rw [entryName?, skipSpace_blank h, entryName?]

end Marks

/-- No expression begins with a closing bracket. -/
theorem mark?_of_read? {cs : List Char} (closing : Char) (closes : closing ∈ [']', ')', '}'])
    (h : read? cs ≠ none) : mark? closing cs = none := by
  cases found : mark? closing cs with
  | none => rfl
  | some rest =>
      refine (h ?_).elim
      rw [read?, opening?, skipSpace_of_mark? found]
      simp only [List.mem_cons, List.not_mem_nil, or_false] at closes
      rcases closes with rfl | rfl | rfl <;> rfl

theorem mark?_of_entryName? {cs : List Char} (h : entryName? cs ≠ none) : mark? '}' cs = none := by
  cases found : mark? '}' cs with
  | none => rfl
  | some rest =>
      refine (h ?_).elim
      rw [entryName?, skipSpace_of_mark? found]
      rfl

theorem Reads.blank {space cs : List Char} {e : Expression} (h : Blank space) (reads : Reads cs e) :
    Reads (space ++ cs) e := by
  intro rest
  have here := reads rest
  rw [read?] at here
  rw [List.append_assoc, read?, opening?_blank h]
  cases begins : opening? (cs ++ rest) with
  | none => simp [begins] at here
  | some found =>
      obtain ⟨opening, inside⟩ := found
      rw [begins] at here
      simp only at here ⊢
      split at here
      · rename_i shorter
        rw [if_pos (by rw [List.length_append]; omega)]
        exact here
      · cases here

/-! ## Lists of items -/

section Lists

variable {texts : List (List Char)} {items : List Expression}

/-- Items with commas between them are read up to their closing bracket. -/
theorem readItems?_joined (closing : Char) (closes : closing ∈ [']', ')', '}'])
    (h : List.Forall₂ Reads texts items) (some_item : items ≠ []) (rest : List Char) :
    readItems? closing ([','].intercalate texts ++ closing :: rest) = some (items, rest) := by
  have solid : isSpace closing = false ∧ ',' ≠ closing := by
    simp only [List.mem_cons, List.not_mem_nil, or_false] at closes
    rcases closes with rfl | rfl | rfl <;> decide
  induction h with
  | nil => exact (some_item rfl).elim
  | @cons text item texts items first others ih =>
      cases others with
      | nil =>
          rw [List.intercalate_singleton, readItems?, first]
          simp only [mark?_self solid.1]
      | cons second others =>
          have further := ih (by simp)
          rw [List.intercalate_cons_cons, List.append_assoc, List.append_assoc, readItems?, first,
            List.singleton_append]
          simp only [mark?_other (show isSpace ',' = false from rfl) solid.2,
            mark?_self (show isSpace ',' = false from rfl), further]
          rw [if_pos (by simp only [List.length_append, List.length_cons]; omega)]
          rfl

/-- All items, or none, are read up to their closing bracket. -/
theorem readList?_joined (closing : Char) (closes : closing ∈ [']', ')', '}'])
    (h : List.Forall₂ Reads texts items) (rest : List Char) :
    readList? closing ([','].intercalate texts ++ closing :: rest) = some (items, rest) := by
  cases h with
  | nil =>
      have solid : isSpace closing = false := by
        simp only [List.mem_cons, List.not_mem_nil, or_false] at closes
        rcases closes with rfl | rfl | rfl <;> rfl
      rw [List.intercalate_nil, List.nil_append, readList?, mark?_self solid]
  | @cons text item texts items first others =>
      have all := readItems?_joined closing closes (.cons first others) (by simp) rest
      have begins : mark? closing ([','].intercalate (text :: texts) ++ closing :: rest) = none := by
        apply mark?_of_read? closing closes
        intro nothing
        rw [readItems?, nothing] at all
        cases all
      rw [readList?, begins]
      exact all

/-- An array is read with its items. -/
theorem reads_array (h : List.Forall₂ Reads texts items) :
    Reads ('[' :: [','].intercalate texts ++ [']']) (.array items) := by
  intro rest
  have all := readList?_joined ']' (by decide) h rest
  rw [List.append_assoc, List.cons_append, read?, opening?, skipSpace_cons rfl]
  simp [all]

theorem name?_run {name : List Char} (some_name : name ≠ []) (named : name.all isNameChar = true)
    {c : Char} (ends : isNameChar c = false) (rest : List Char) :
    name? (name ++ c :: rest) = some (name, c :: rest) := by
  have all := List.all_eq_true.1 named
  rw [name?, List.takeWhile_append_of_pos all, List.dropWhile_append_of_pos all,
    List.takeWhile_cons_of_neg (by simp [ends]), List.dropWhile_cons_of_neg (by simp [ends]),
    List.append_nil]
  cases name with
  | nil => exact (some_name rfl).elim
  | cons d name => rfl

/-- A new object is read with its arguments. -/
theorem reads_new {name : List Char} (some_name : name ≠ []) (named : name.all isNameChar = true)
    (h : List.Forall₂ Reads texts items) :
    Reads (['n', 'e', 'w', ' '] ++ name ++ '(' :: [','].intercalate texts ++ [')'])
      (.new (String.ofList name) items) := by
  intro rest
  have all := readList?_joined ')' (by decide) h rest
  have begins : opening? (['n', 'e', 'w', ' '] ++ (name ++ '(' :: ([','].intercalate texts ++ ')' :: rest))) =
      some (.new name, [','].intercalate texts ++ ')' :: rest) := by
    rw [opening?, List.cons_append, skipSpace_cons rfl]
    simp only [List.cons_append, List.nil_append]
    rw [name?_run some_name named (by decide)]
    simp [mark?_self (show isSpace '(' = false from rfl)]
  simp only [List.append_assoc, List.cons_append, List.nil_append] at begins ⊢
  rw [read?, begins]
  simp only [all, Option.map_some]
  rw [if_pos (by simp only [List.length_append, List.length_cons]; omega)]

end Lists

section Entries

variable {before after : List Char} {texts : List (List Char)} {entries : List (String × Expression)}

/-- Entries with commas between them are read up to the closing brace. -/
theorem readEntries?_joined (hb : Blank before) (ha : Blank after)
    (h : List.Forall₂ ReadsEntry texts entries) (some_entry : entries ≠ []) (rest : List Char) :
    readEntries? (before ++ (',' :: before).intercalate texts ++ after ++ '}' :: rest) =
      some (entries, rest) := by
  induction h with
  | nil => exact (some_entry rfl).elim
  | @cons text entry texts entries first others ih =>
      obtain ⟨head, value, some_head, named, reads, rfl⟩ := first
      have longer := List.length_pos_iff.2 some_head
      cases others with
      | nil =>
          simp only [List.intercalate_singleton, List.append_assoc]
          rw [readEntries?, entryName?_blank hb, named]
          simp only
          rw [if_pos (by simp only [List.length_append]; omega), reads]
          simp only [mark?_blank ha, mark?_self (show isSpace '}' = false from rfl)]
      | cons second others =>
          have further := ih (by simp)
          simp only [List.append_assoc] at further
          simp only [List.intercalate_cons_cons, List.append_assoc]
          rw [readEntries?, entryName?_blank hb, named]
          simp only
          rw [if_pos (by simp only [List.length_append]; omega), reads, List.cons_append]
          simp only [mark?_other (show isSpace ',' = false from rfl) (show ',' ≠ '}' by decide),
            mark?_self (show isSpace ',' = false from rfl), further]
          rw [if_pos (by simp only [List.length_append, List.length_cons]; omega)]
          rfl

/-- An object is read with its entries. White space may stand before each and behind the last. -/
theorem reads_object (hb : Blank before) (ha : Blank after)
    (h : List.Forall₂ ReadsEntry texts entries) :
    Reads ('{' :: before ++ (',' :: before).intercalate texts ++ after ++ ['}']) (.object entries) := by
  intro rest
  have all : readFields? (before ++ (',' :: before).intercalate texts ++ after ++ '}' :: rest) =
      some (entries, rest) := by
    cases h with
    | nil =>
        rw [readFields?, List.intercalate_nil, List.append_nil, List.append_assoc, mark?_blank hb,
          mark?_blank ha, mark?_self rfl]
    | cons first others =>
        have all := readEntries?_joined hb ha (.cons first others) (by simp) rest
        rw [readFields?, mark?_of_entryName?]
        · exact all
        · intro nothing
          rw [readEntries?, nothing] at all
          cases all
  simp only [List.append_assoc, List.cons_append, List.nil_append] at all ⊢
  rw [read?, opening?, skipSpace_cons rfl]
  simp [all]

end Entries

end Stencil.Script
