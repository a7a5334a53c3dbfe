import Mathlib.Data.List.Forall2
import Stencil.Json.Reader

/-! # Reading what has been written

A text writes a document when it spells its parts in order, with any white space between
them. Such a text is read back as the document if the document is nested no deeper than the
reader goes, and refused otherwise. Both forms in which documents are printed write them.
-/

namespace Stencil.Json

/-! ## Strings -/

/-- The two digits of a number below 32 give the number back. -/
theorem unit?_control : ∀ n < 0x20,
    unit? '0' '0' (Nat.digitChar (n / 16)) (Nat.digitChar (n % 16)) = some n := by
  decide

/-- A control is read from its four digits. -/
theorem readUnit?_control {c : Char} (control : c.toNat < 0x20) (rest : List Char) :
    readUnit? ('0' :: '0' :: (hexByte c.toNat ++ rest)) = some (c, rest) := by
  have low : isTrailing c.toNat = false ∧ isLeading c.toNat = false := by
    simp [isTrailing, isLeading]
    omega
  simp [hexByte, readUnit?, unit?_control c.toNat control, low]

theorem readChar?_escapedChar (c : Char) (rest : List Char) :
    readChar? (escapedChar c ++ rest) = some (c, rest) := by
  unfold escapedChar
  split
  case h_8 quote backslash _ _ _ _ _ =>
    split
    · rename_i control
      exact readUnit?_control control rest
    · rename_i printable
      have plain : c ≠ '\\' := backslash
      simp [readChar?, plain, printable]
  all_goals rfl

theorem escapedChar_head (c : Char) : ∃ e rest, escapedChar c = e :: rest ∧ e ≠ '"' := by
  unfold escapedChar
  split
  case h_8 quote _ _ _ _ _ _ =>
    split
    · exact ⟨_, _, rfl, by decide⟩
    · exact ⟨_, _, rfl, quote⟩
  all_goals exact ⟨_, _, rfl, by decide⟩

/-- What stands between quotes is read back. -/
theorem readString?_escaped (cs rest : List Char) :
    readString? (escaped cs ++ '"' :: rest) = some (cs, rest) := by
  induction cs with
  | nil => rw [escaped, List.flatMap_nil, List.nil_append, readString?]
  | cons c cs ih =>
      obtain ⟨e, more, escape, other⟩ := escapedChar_head c
      have first := readChar?_escapedChar c (escaped cs ++ '"' :: rest)
      have shape : escaped (c :: cs) ++ '"' :: rest =
          escapedChar c ++ (escaped cs ++ '"' :: rest) := by
        simp [escaped]
      rw [escape, List.cons_append] at first
      have shorter : (escaped cs ++ '"' :: rest).length <
          (e :: (more ++ (escaped cs ++ '"' :: rest))).length := by
        simp only [List.length_cons, List.length_append]
        omega
      rw [shape, escape, List.cons_append, readString?, first]
      · simp only [if_pos shorter, ih, Option.map_some]
      · exact fun tail same => other (List.cons.inj same).1

/-! ## White space -/

/-- Only white space. -/
def Blank (cs : List Char) : Prop := ∀ c ∈ cs, isSpace c = true

theorem blank_nil : Blank [] := by simp [Blank]

theorem skipSpace_blank {space : List Char} (h : Blank space) (cs : List Char) :
    skipSpace (space ++ cs) = skipSpace cs := by
  induction space with
  | nil => rfl
  | cons c space ih =>
      have first : isSpace c = true := h c (by simp)
      have others : skipSpace (space ++ cs) = skipSpace cs := ih fun x mem => h x (by simp [mem])
      rw [List.cons_append, skipSpace, List.dropWhile_cons_of_pos first]
      exact others

theorem skipSpace_cons {c : Char} (h : isSpace c = false) (cs : List Char) :
    skipSpace (c :: cs) = c :: cs :=
  List.dropWhile_cons_of_neg (by simp [h])

/-! ## Nesting -/

mutual

/-- How deep arrays and objects are nested in each other. -/
def nesting : Json → Nat
  | array items => nestingAll items + 1
  | object fields => nestingFields fields + 1
  | _ => 0

def nestingAll : List Json → Nat
  | [] => 0
  | j :: js => max (nesting j) (nestingAll js)

def nestingFields : List (String × Json) → Nat
  | [] => 0
  | (_, j) :: fields => max (nesting j) (nestingFields fields)

end

/-! ## Spellings -/

mutual

/-- A text writes a document of texts, arrays and objects. -/
inductive Writes : List Char → Json → Prop
  | string (s : String) : Writes ('"' :: escaped s.toList ++ ['"']) (string s)
  | emptyArray {space : List Char} : Blank space → Writes ('[' :: space ++ [']']) (array [])
  | array {inside : List Char} {items : List Json} :
      WritesItems inside items → Writes ('[' :: inside ++ [']']) (array items)
  | emptyObject {space : List Char} : Blank space → Writes ('{' :: space ++ ['}']) (object [])
  | object {inside : List Char} {fields : List (String × Json)} :
      WritesFields inside fields → Writes ('{' :: inside ++ ['}']) (object fields)

/-- A text writes one item or more, with commas between them. -/
inductive WritesItems : List Char → List Json → Prop
  | last {before cs after : List Char} {j : Json} :
      Blank before → Writes cs j → Blank after → WritesItems (before ++ cs ++ after) [j]
  | more {before cs after others : List Char} {j : Json} {js : List Json} :
      Blank before → Writes cs j → Blank after → WritesItems others js →
      WritesItems (before ++ cs ++ after ++ ',' :: others) (j :: js)

/-- A text writes one field or more, with commas between them. -/
inductive WritesFields : List Char → List (String × Json) → Prop
  | last {before middle after cs : List Char} {key : String} {j : Json} :
      Blank before → Blank middle → Writes cs j → Blank after →
      WritesFields (before ++ '"' :: escaped key.toList ++ '"' :: ':' :: middle ++ cs ++ after)
        [(key, j)]
  | more {before middle after cs others : List Char} {key : String} {j : Json}
      {fields : List (String × Json)} :
      Blank before → Blank middle → Writes cs j → Blank after → WritesFields others fields →
      WritesFields (before ++ '"' :: escaped key.toList ++ '"' :: ':' :: middle ++ cs ++ after ++
        ',' :: others) ((key, j) :: fields)

end

theorem Writes.head {cs : List Char} {j : Json} (h : Writes cs j) :
    ∃ c rest, cs = c :: rest ∧ isSpace c = false ∧ c ≠ ']' := by
  cases h <;> exact ⟨_, _, rfl, rfl, by decide⟩

theorem WritesItems.head {cs : List Char} {items : List Json} (h : WritesItems cs items)
    (rest : List Char) : ∃ c more, skipSpace (cs ++ rest) = c :: more ∧ c ≠ ']' := by
  have first {before cs : List Char} {j : Json} (blank : Blank before) (item : Writes cs j)
      (more : List Char) : ∃ c rest, skipSpace (before ++ (cs ++ more)) = c :: rest ∧ c ≠ ']' := by
    obtain ⟨c, rest, rfl, solid, other⟩ := item.head
    exact ⟨c, rest ++ more, by rw [skipSpace_blank blank, List.cons_append, skipSpace_cons solid],
      other⟩
  cases h with
  | last before item after => simpa [List.append_assoc] using first before item _
  | more before item after others => simpa [List.append_assoc] using first before item _

theorem WritesFields.head {cs : List Char} {fields : List (String × Json)}
    (h : WritesFields cs fields) (rest : List Char) :
    ∃ more, skipSpace (cs ++ rest) = '"' :: more := by
  cases h with
  | last before middle value after =>
      simp only [List.append_assoc, List.cons_append]
      rw [skipSpace_blank before, skipSpace_cons rfl]
      exact ⟨_, rfl⟩
  | more before middle value after others =>
      simp only [List.append_assoc, List.cons_append]
      rw [skipSpace_blank before, skipSpace_cons rfl]
      exact ⟨_, rfl⟩

/-! ## Reading what is written -/

section Steps

variable {depth : Nat} {inside rest : List Char}

theorem read?_blank {space : List Char} (h : Blank space) (depth : Nat) (cs : List Char) :
    read? depth (space ++ cs) = read? depth cs := by
  rw [read?.eq_def, read?.eq_def depth cs, skipSpace_blank h]

theorem read?_array_zero (inside : List Char) : read? 0 ('[' :: inside) = none :=
  read?.eq_1 _ _ (skipSpace_cons rfl _)

theorem read?_object_zero (inside : List Char) : read? 0 ('{' :: inside) = none :=
  read?.eq_2 _ _ (skipSpace_cons rfl _)

theorem read?_emptyArray (h : skipSpace inside = ']' :: rest) :
    read? (depth + 1) ('[' :: inside) = some (array [], rest) := by
  simp [read?.eq_3 _ _ _ (skipSpace_cons rfl _), h]

theorem read?_array (h : ∀ rest, skipSpace inside ≠ ']' :: rest) :
    read? (depth + 1) ('[' :: inside) =
      (readItems? depth inside).map fun (items, rest) => (array items, rest) := by
  rw [read?.eq_3 _ _ _ (skipSpace_cons rfl _)]
  split
  · exact (h _ ‹_›).elim
  · rfl

theorem read?_emptyObject (h : skipSpace inside = '}' :: rest) :
    read? (depth + 1) ('{' :: inside) = some (object [], rest) := by
  simp [read?.eq_4 _ _ _ (skipSpace_cons rfl _), h]

theorem read?_object (h : ∀ rest, skipSpace inside ≠ '}' :: rest) :
    read? (depth + 1) ('{' :: inside) =
      (readFields? (fun _ => true) depth inside).map fun (fields, rest) => (object fields, rest) := by
  rw [read?.eq_4 _ _ _ (skipSpace_cons rfl _)]
  split
  · exact (h _ ‹_›).elim
  · rfl

/-- A key and the colon behind it are taken off before the value. -/
theorem readFields?_key {space : List Char} (h : Blank space) (keep : String → Bool) (depth : Nat)
    (key : String) (value : List Char) (kept : keep key = true) :
    readFields? keep depth (space ++ '"' :: (escaped key.toList ++ '"' :: ':' :: value)) =
      match read? depth value with
      | none => none
      | some (j, rest) =>
          match skipSpace rest with
          | ',' :: rest =>
              if rest.length <
                  (space ++ '"' :: (escaped key.toList ++ '"' :: ':' :: value)).length then
                (readFields? keep depth rest).map fun (fields, rest) => ((key, j) :: fields, rest)
              else none
          | '}' :: rest => some ([(key, j)], rest)
          | _ => none := by
  rw [readFields?.eq_def, skipSpace_blank h, skipSpace_cons rfl]
  simp only [readString?_escaped, skipSpace_cons (show isSpace ':' = false from rfl),
    String.ofList_toList, kept, if_true]
  cases read? depth value with
  | none => rfl
  | some found => rfl

end Steps

mutual

/-- A text that writes a document is read as the document, if this is not nested too deep. -/
theorem Writes.reads {cs : List Char} {j : Json} : Writes cs j → ∀ (depth : Nat) (rest : List Char),
    read? depth (cs ++ rest) = if j.nesting ≤ depth then some (j, rest) else none
  | .string s, depth, rest => by
      rw [read?.eq_def]
      simp only [List.cons_append, skipSpace_cons (show isSpace '"' = false from rfl)]
      simp [readScalar?, List.append_assoc, readString?_escaped, nesting]
  | .emptyArray blank, 0, rest => by simp [read?_array_zero, nesting]
  | .emptyArray blank, depth + 1, rest => by
      simp only [List.cons_append, List.append_assoc, List.nil_append]
      rw [read?_emptyArray (skipSpace_blank blank _)]
      simp [nesting, nestingAll]
  | .array items, 0, rest => by simp [read?_array_zero, nesting]
  | .array items, depth + 1, rest => by
      obtain ⟨c, more, start, other⟩ := items.head (']' :: rest)
      simp only [List.cons_append, List.append_assoc, List.nil_append]
      rw [read?_array, items.reads]
      · simp only [nesting, Nat.add_le_add_iff_right]
        split <;> rfl
      · intro tail same
        rw [start] at same
        exact other (List.cons.inj same).1
  | .emptyObject blank, 0, rest => by simp [read?_object_zero, nesting]
  | .emptyObject blank, depth + 1, rest => by
      simp only [List.cons_append, List.append_assoc, List.nil_append]
      rw [read?_emptyObject (skipSpace_blank blank _)]
      simp [nesting, nestingFields]
  | .object fields, 0, rest => by simp [read?_object_zero, nesting]
  | .object fields, depth + 1, rest => by
      obtain ⟨more, start⟩ := fields.head ('}' :: rest)
      simp only [List.cons_append, List.append_assoc, List.nil_append]
      rw [read?_object, fields.reads (fun _ => true) (fun _ _ => rfl)]
      · simp only [nesting, Nat.add_le_add_iff_right]
        split <;> rfl
      · intro tail same
        rw [start] at same
        cases same

theorem WritesItems.reads {cs : List Char} {items : List Json} : WritesItems cs items →
    ∀ (depth : Nat) (rest : List Char), readItems? depth (cs ++ ']' :: rest) =
      if nestingAll items ≤ depth then some (items, rest) else none
  | @WritesItems.last _ _ _ j before item after, depth, rest => by
      rw [readItems?.eq_def, List.append_assoc, List.append_assoc, read?_blank before, item.reads]
      by_cases deep : j.nesting ≤ depth
      · simp [nestingAll, deep, skipSpace_blank after, skipSpace_cons, isSpace]
      · simp [nestingAll, deep]
  | @WritesItems.more space cs space' ds j js before item after others, depth, rest => by
      rw [readItems?.eq_def, List.append_assoc, List.append_assoc, List.append_assoc,
        List.cons_append, read?_blank before, item.reads]
      by_cases deep : j.nesting ≤ depth
      · have shorter : (ds ++ ']' :: rest).length <
            (space ++ (cs ++ (space' ++ ',' :: (ds ++ ']' :: rest)))).length := by
          simp only [List.length_append, List.length_cons]
          omega
        simp only [deep, if_true, skipSpace_blank after,
          skipSpace_cons (show isSpace ',' = false from rfl), shorter, others.reads]
        simp only [nestingAll, Nat.max_le, deep, true_and]
        split <;> rfl
      · have exceeded : ¬nestingAll (j :: js) ≤ depth := fun both => deep (Nat.max_le.1 both).1
        simp [deep, exceeded]

theorem WritesFields.reads {cs : List Char} {fields : List (String × Json)} :
    WritesFields cs fields → ∀ keep : String → Bool, (∀ key ∈ fields.map Prod.fst, keep key = true) →
    ∀ (depth : Nat) (rest : List Char), readFields? keep depth (cs ++ '}' :: rest) =
      if nestingFields fields ≤ depth then some (fields, rest) else none
  | @WritesFields.last _ _ _ _ key j before middle value after, keep, kept, depth, rest => by
      simp only [List.append_assoc, List.cons_append]
      rw [readFields?_key before keep depth key _ (kept key (by simp)), read?_blank middle,
        value.reads]
      by_cases deep : j.nesting ≤ depth
      · simp [nestingFields, deep, skipSpace_blank after, skipSpace_cons, isSpace]
      · simp [nestingFields, deep]
  | @WritesFields.more space space' space'' cs ds key j fields before middle value after others,
      keep, kept, depth, rest => by
      simp only [List.append_assoc, List.cons_append]
      rw [readFields?_key before keep depth key _ (kept key (by simp)), read?_blank middle,
        value.reads]
      by_cases deep : j.nesting ≤ depth
      · have shorter : (ds ++ '}' :: rest).length <
            (space ++ '"' :: (escaped key.toList ++ '"' :: ':' :: (space' ++ (cs ++ (space'' ++
              ',' :: (ds ++ '}' :: rest)))))).length := by
          simp only [List.length_append, List.length_cons]
          omega
        simp only [deep, if_true, skipSpace_blank after,
          skipSpace_cons (show isSpace ',' = false from rfl), shorter,
          others.reads keep (fun key mem => kept key (by simp [mem]))]
        simp only [nestingFields, Nat.max_le, deep, true_and]
        split <;> rfl
      · have exceeded : ¬nestingFields ((key, j) :: fields) ≤ depth := fun both =>
          deep (Nat.max_le.1 both).1
        simp [deep, exceeded]

end

/-- An object of which all fields are known is read as any object. -/
theorem readRecord?_known {known : List String} {cs : List Char} {fields : List (String × Json)}
    (h : Writes cs (object fields)) (all : ∀ key ∈ fields.map Prod.fst, key ∈ known) :
    ∀ (depth : Nat) (rest : List Char),
      readRecord? known depth (cs ++ rest) = read? depth (cs ++ rest)
  | 0, rest => by
      obtain ⟨inside, rfl⟩ : ∃ inside, cs = '{' :: inside := by
        cases h <;> exact ⟨_, rfl⟩
      unfold readRecord?
      rw [List.cons_append, skipSpace_cons rfl]
      rfl
  | depth + 1, rest => by
      cases h with
      | emptyObject blank =>
          simp only [List.cons_append, List.append_assoc, List.nil_append]
          unfold readRecord?
          rw [read?_emptyObject (skipSpace_blank blank _), skipSpace_cons rfl]
          simp [skipSpace_blank blank, skipSpace_cons, isSpace]
      | object inside =>
          obtain ⟨more, start⟩ := inside.head ('}' :: rest)
          have other : ∀ tail, '"' :: more ≠ '}' :: tail := nofun
          simp only [List.cons_append, List.append_assoc, List.nil_append]
          unfold readRecord?
          rw [read?_object (by rwa [start]), skipSpace_cons rfl]
          simp only [start]
          rw [inside.reads (fun _ => true) (fun _ _ => rfl), inside.reads known.contains
            (fun key mem => List.contains_iff_mem.2 (all key mem))]

theorem readRecord?_blank {space : List Char} (h : Blank space) (known : List String)
    (depth : Nat) (cs : List Char) :
    readRecord? known depth (space ++ cs) = readRecord? known depth cs := by
  unfold readRecord?
  simp only [skipSpace_blank h, read?_blank h]

/-- The value of a field is a record of which all fields are known. -/
def Known (known : List String) (field : String × Json) : Prop :=
  ∃ fields, field.2 = object fields ∧ ∀ key ∈ fields.map Prod.fst, key ∈ known

/-- A key and the record behind it are taken off before the other records. -/
theorem readRecords?_key {known : List String} {before middle cs : List Char} {key : String}
    {j : Json} (hb : Blank before) (hm : Blank middle) (value : Writes cs j)
    (record : Known known (key, j)) (depth : Nat) (more : List Char) :
    readRecords? known depth
        (before ++ '"' :: (escaped key.toList ++ '"' :: ':' :: (middle ++ (cs ++ more)))) =
      if j.nesting ≤ depth then
        match skipSpace more with
        | ',' :: rest =>
            if rest.length < (before ++ '"' :: (escaped key.toList ++ '"' :: ':' ::
                (middle ++ (cs ++ more)))).length then
              (readRecords? known depth rest).map fun (records, rest) => ((key, j) :: records, rest)
            else none
        | '}' :: rest => some ([(key, j)], rest)
        | _ => none
      else none := by
  obtain ⟨fields, rfl, all⟩ := record
  rw [readRecords?.eq_def, skipSpace_blank hb, skipSpace_cons rfl]
  simp only [readString?_escaped, skipSpace_cons (show isSpace ':' = false from rfl),
    readRecord?_blank hm, readRecord?_known value all, value.reads, String.ofList_toList]
  by_cases deep : nesting (object fields) ≤ depth
  · simp only [deep, if_true]
    try rfl
  · simp only [deep, if_false]

theorem WritesFields.readsRecords {known : List String} {cs : List Char}
    {fields : List (String × Json)} : WritesFields cs fields →
    (∀ field ∈ fields, Known known field) → ∀ (depth : Nat) (rest : List Char),
      readRecords? known depth (cs ++ '}' :: rest) =
        if nestingFields fields ≤ depth then some (fields, rest) else none
  | @WritesFields.last _ _ _ _ key j before middle value after, records, depth, rest => by
      simp only [List.append_assoc, List.cons_append]
      rw [readRecords?_key before middle value (records _ (by simp)), skipSpace_blank after,
        skipSpace_cons rfl]
      simp [nestingFields]
  | @WritesFields.more space space' space'' cs ds key j fields before middle value after others,
      records, depth, rest => by
      have shorter : (ds ++ '}' :: rest).length <
          (space ++ '"' :: (escaped key.toList ++ '"' :: ':' :: (space' ++ (cs ++ (space'' ++
            ',' :: (ds ++ '}' :: rest)))))).length := by
        simp only [List.length_append, List.length_cons]
        omega
      simp only [List.append_assoc, List.cons_append]
      rw [readRecords?_key before middle value (records _ (by simp)), skipSpace_blank after,
        skipSpace_cons rfl]
      simp only [shorter, if_true, nestingFields, Nat.max_le,
        others.readsRecords fun field mem => records field (by simp [mem])]
      by_cases deep : j.nesting ≤ depth
      · simp only [deep, if_true, true_and]
        split <;> rfl
      · simp only [deep, if_false, false_and]

/-! ## Whole texts -/

theorem record?_written {known : List String} {text : String} {fields : List (String × Json)}
    (h : Writes text.toList (object fields)) (all : ∀ key ∈ fields.map Prod.fst, key ∈ known) :
    record? known text = if nesting (object fields) ≤ maxDepth then some (object fields) else none := by
  have read := (readRecord?_known h all maxDepth []).trans (h.reads maxDepth [])
  rw [List.append_nil] at read
  simp only [record?, whole?, read]
  by_cases deep : nesting (object fields) ≤ maxDepth
  · simp [deep, skipSpace]
  · simp [deep]

theorem records?_written {known : List String} {text : String} {fields : List (String × Json)}
    (h : Writes text.toList (object fields)) (records : ∀ field ∈ fields, Known known field) :
    records? known text = if nesting (object fields) ≤ maxDepth then some fields else none := by
  unfold records? whole?
  dsimp only
  generalize text.toList = cs at h
  cases h with
  | emptyObject blank =>
      rw [List.cons_append, skipSpace_cons rfl]
      simp only [skipSpace_blank blank]
      rfl
  | object inside =>
      obtain ⟨more, start⟩ := inside.head ['}']
      have read := inside.readsRecords records (maxDepth - 1) []
      rw [List.cons_append, skipSpace_cons rfl]
      simp only [start, read]
      have same : nesting (object fields) ≤ maxDepth ↔ nestingFields fields ≤ maxDepth - 1 := by
        simp only [nesting, maxDepth]
        omega
      by_cases deep : nestingFields fields ≤ maxDepth - 1
      · simp [deep, same.2 deep, skipSpace]
      · simp [deep, mt same.1 deep]

/-! ## Printing -/

mutual

/-- Made of texts, arrays and objects. -/
def Textual : Json → Prop
  | string _ => True
  | array items => TextualAll items
  | object fields => TextualFields fields
  | _ => False

def TextualAll : List Json → Prop
  | [] => True
  | j :: js => j.Textual ∧ TextualAll js

def TextualFields : List (String × Json) → Prop
  | [] => True
  | (_, j) :: fields => j.Textual ∧ TextualFields fields

end

theorem quote_toList (s : String) : (quote s).toList = '"' :: escaped s.toList ++ ['"'] :=
  String.toList_ofList

/-- A text writes a key, a colon and the document of a field. -/
def WritesField (cs : List Char) (field : String × Json) : Prop :=
  ∃ middle inside, Blank middle ∧ Writes inside field.2 ∧
    cs = '"' :: escaped field.1.toList ++ '"' :: ':' :: middle ++ inside

section Joined

variable {before after : List Char}

theorem writesItems_joined (hb : Blank before) (ha : Blank after) {texts : List (List Char)}
    {items : List Json} (h : List.Forall₂ Writes texts items) (some_item : items ≠ []) :
    WritesItems (before ++ (',' :: before).intercalate texts ++ after) items := by
  induction h with
  | nil => exact (some_item rfl).elim
  | @cons text j texts items first others ih =>
      cases others with
      | nil =>
          rw [List.intercalate_singleton]
          exact .last hb first ha
      | cons second others =>
          have rest := ih (by simp)
          have more := WritesItems.more hb first blank_nil rest
          simpa [List.intercalate_cons_cons] using more

theorem writesFields_joined (hb : Blank before) (ha : Blank after) {texts : List (List Char)}
    {fields : List (String × Json)} (h : List.Forall₂ WritesField texts fields)
    (some_field : fields ≠ []) :
    WritesFields (before ++ (',' :: before).intercalate texts ++ after) fields := by
  induction h with
  | nil => exact (some_field rfl).elim
  | @cons text field texts fields first others ih =>
      obtain ⟨key, j⟩ := field
      obtain ⟨middle, inside, hm, value, rfl⟩ := first
      cases others with
      | nil =>
          have last : WritesFields _ [(key, j)] := .last hb hm value ha
          simpa using last
      | cons second others =>
          have rest := ih (by simp)
          have more : WritesFields _ ((key, j) :: _) := .more hb hm value blank_nil rest
          simpa [List.intercalate_cons_cons] using more

end Joined

theorem writes_quote (s : String) : Writes (quote s).toList (string s) := by
  rw [quote_toList]
  exact .string s

mutual

/-- The form on one line writes the document. -/
theorem writes_print : (j : Json) → j.Textual → Writes j.print.toList j
  | string s, _ => writes_quote s
  | array [], _ => .emptyArray blank_nil
  | array (j :: js), h => by
      have items := writesItems_joined blank_nil blank_nil (writes_printItems (j :: js) h) (by simp)
      simpa [print, String.toList_intercalate] using Writes.array items
  | object [], _ => .emptyObject blank_nil
  | object (field :: fields), h => by
      have all := writesFields_joined blank_nil blank_nil (writes_printFields (field :: fields) h)
        (by simp)
      simpa [print, String.toList_intercalate] using Writes.object all

theorem writes_printItems : (js : List Json) → TextualAll js →
    List.Forall₂ Writes ((printItems js).map String.toList) js
  | [], _ => .nil
  | j :: js, h => .cons (writes_print j h.1) (writes_printItems js h.2)

theorem writes_printFields : (fields : List (String × Json)) → TextualFields fields →
    List.Forall₂ WritesField ((printFields fields).map String.toList) fields
  | [], _ => .nil
  | (key, j) :: fields, h =>
      .cons ⟨[], _, blank_nil, writes_print j h.1, by simp [quote_toList]⟩
        (writes_printFields fields h.2)

end

theorem blank_newline (level : Nat) : Blank (newline level).toList := by
  intro c mem
  simp only [newline, String.toList_append, String.toList_ofList, List.mem_append,
    List.mem_replicate] at mem
  rcases mem with mem | ⟨-, rfl⟩
  · simp at mem
    subst mem
    rfl
  · rfl

theorem spread_cons (opening closing : String) (level : Nat) (text : String) (texts : List String) :
    (spread opening closing level (text :: texts)).toList =
      opening.toList ++ ((newline (level + 1)).toList ++
        (',' :: (newline (level + 1)).toList).intercalate ((text :: texts).map String.toList) ++
        (newline level).toList) ++ closing.toList := by
  simp [spread, String.toList_intercalate]

mutual

/-- The form with a line for every item writes the document. -/
theorem writes_pretty : (j : Json) → j.Textual → ∀ level, Writes (j.pretty level).toList j
  | string s, _, _ => writes_quote s
  | array [], _, _ => by
      rw [pretty, prettyItems, spread]
      exact .emptyArray blank_nil
  | array (j :: js), h, level => by
      have items := writesItems_joined (blank_newline (level + 1)) (blank_newline level)
        (writes_prettyItems (j :: js) h (level + 1)) (by simp)
      rw [pretty, prettyItems, spread_cons]
      exact Writes.array items
  | object [], _, _ => by
      rw [pretty, prettyFields, spread]
      exact .emptyObject blank_nil
  | object ((key, j) :: fields), h, level => by
      have all := writesFields_joined (blank_newline (level + 1)) (blank_newline level)
        (writes_prettyFields ((key, j) :: fields) h (level + 1)) (by simp)
      rw [pretty, prettyFields, spread_cons]
      exact Writes.object all

theorem writes_prettyItems : (js : List Json) → TextualAll js → ∀ level,
    List.Forall₂ Writes ((prettyItems level js).map String.toList) js
  | [], _, _ => .nil
  | j :: js, h, level => .cons (writes_pretty j h.1 level) (writes_prettyItems js h.2 level)

theorem writes_prettyFields : (fields : List (String × Json)) → TextualFields fields → ∀ level,
    List.Forall₂ WritesField ((prettyFields level fields).map String.toList) fields
  | [], _, _ => .nil
  | (key, j) :: fields, h, level =>
      .cons ⟨[' '], _, by simp [Blank, isSpace], writes_pretty j h.1 level, by simp [quote_toList]⟩
        (writes_prettyFields fields h.2 level)

end

end Stencil.Json
