import Stencil.Block

/-! # Well nested tags

Tags are well nested if each tag that opens a block has one that closes it under the same name,
with well nested tags between and behind. Reading tags from left to right, a name is open from
the tag that opens its block to the one that closes it. Tags can go on to be well nested as long
as none of them breaks this rule.
-/

namespace Stencil.BlockTag

/-- Whether the tag opens a block: by a hash, or by a caret where this is allowed. -/
def opens (alternate : Bool) (tag : BlockTag) : Bool :=
  tag.sigil == '#' || (tag.sigil == '^' && alternate)

/-- Whether the tag closes a block. -/
def closes (tag : BlockTag) : Bool := tag.sigil == '/'

/-- Blocks behind and inside each other, each closed under its name. -/
inductive Nested (alternate : Bool) : List BlockTag → Prop
  | nil : Nested alternate []
  | block {opening closing : BlockTag} {inner rest : List BlockTag} :
      opening.opens alternate = true → closing.closes = true → closing.name = opening.name →
      Nested alternate inner → Nested alternate rest →
      Nested alternate (opening :: inner ++ closing :: rest)

/-- The tags begin some well nested tags. -/
def Viable (alternate : Bool) (tags : List BlockTag) : Prop := ∃ more, Nested alternate (tags ++ more)

/-- The names that are open behind tags, the innermost first. There are none if a tag breaks
the rule. -/
def left? (alternate : Bool) : List (List Char) → List BlockTag → Option (List (List Char))
  | names, [] => some names
  | names, tag :: tags =>
      if tag.opens alternate then left? alternate (tag.name :: names) tags
      else if tag.closes then
        match names with
        | name :: names => if name = tag.name then left? alternate names tags else none
        | [] => none
      else none

variable {alternate : Bool} {tags more : List BlockTag}

theorem not_opens_of_closes {tag : BlockTag} (h : tag.closes = true) : ¬tag.opens alternate = true := by
  have slash : tag.sigil = '/' := beq_iff_eq.1 h
  simp [opens, slash]

section Names

variable {tag : BlockTag} {name : List Char} {names : List (List Char)}

theorem left?_opens (opens : tag.opens alternate = true) :
    left? alternate names (tag :: tags) = left? alternate (tag.name :: names) tags := by
  rw [left?.eq_def]
  exact if_pos opens

theorem left?_closes (closes : tag.closes = true) :
    left? alternate (name :: names) (tag :: tags) =
      if name = tag.name then left? alternate names tags else none := by
  rw [left?.eq_def]
  exact (if_neg (not_opens_of_closes closes)).trans (if_pos closes)

/-- No block is closed outside of all blocks. -/
theorem left?_unopened (closes : tag.closes = true) : left? alternate [] (tag :: tags) = none := by
  rw [left?.eq_def]
  exact (if_neg (not_opens_of_closes closes)).trans (if_pos closes)

theorem left?_unexpected (opens : ¬tag.opens alternate = true) (closes : ¬tag.closes = true) :
    left? alternate names (tag :: tags) = none := by
  rw [left?.eq_def]
  exact (if_neg opens).trans (if_neg closes)

end Names

namespace Nested

theorem append (h : Nested alternate tags) (hm : Nested alternate more) : Nested alternate (tags ++ more) := by
  induction h with
  | nil => exact hm
  | block opening closing same inner rest _ ih =>
      rw [List.append_assoc, List.cons_append]
      exact .block opening closing same inner ih

/-- Well nested tags may stand between any of well nested tags. -/
theorem insert {middle : List BlockTag} (hm : Nested alternate middle) {whole : List BlockTag}
    (h : Nested alternate whole) : ∀ front back, whole = front ++ back →
      Nested alternate (front ++ middle ++ back) := by
  induction h with
  | nil =>
      intro front back same
      obtain ⟨rfl, rfl⟩ := List.append_eq_nil_iff.1 same.symm
      simpa using hm
  | @block opening closing inner rest opens closes named hi hr ihi ihr =>
      intro front back same
      cases front with
      | nil =>
          rw [List.nil_append] at same
          rw [← same]
          exact hm.append (.block opens closes named hi hr)
      | cons first front =>
          rw [List.cons_append, List.cons_append, List.cons.injEq] at same
          obtain ⟨rfl, same⟩ := same
          -- The place is behind the block, or inside it.
          rcases List.append_eq_append_iff.1 same with ⟨between, rfl, behind⟩ | ⟨between, rfl, rfl⟩
          · cases between with
            | nil =>
                rw [List.nil_append] at behind
                subst behind
                have inside := ihi inner [] (List.append_nil inner).symm
                simpa using Nested.block opens closes named inside hr
            | cons next between =>
                rw [List.cons_append, List.cons.injEq] at behind
                obtain ⟨rfl, rfl⟩ := behind
                have later := ihr between back rfl
                simpa using Nested.block opens closes named hi later
          · have inside := ihi front between rfl
            simpa using Nested.block opens closes named inside hr

/-- Well nested tags leave the open names as they are. -/
theorem left?_append (h : Nested alternate tags) (names : List (List Char)) (more : List BlockTag) :
    left? alternate names (tags ++ more) = left? alternate names more := by
  induction h generalizing names more with
  | nil => rfl
  | block opens closes named _ _ ihi ihr =>
      rw [List.append_assoc, List.cons_append, left?_opens opens, ihi, List.cons_append,
        left?_closes closes, if_pos named.symm, ihr]

theorem left?_eq (h : Nested alternate tags) (names : List (List Char)) :
    left? alternate names tags = some names := by
  have whole := h.left?_append names []
  rwa [List.append_nil] at whole

theorem viable (h : Nested alternate tags) : Viable alternate tags := ⟨[], by rwa [List.append_nil]⟩

end Nested

theorem left?_append (names : List (List Char)) (tags more : List BlockTag) :
    left? alternate names (tags ++ more) =
      (left? alternate names tags).bind fun names => left? alternate names more := by
  induction tags generalizing names with
  | nil => rfl
  | cons tag tags ih =>
      rw [List.cons_append]
      by_cases opens : tag.opens alternate = true
      · rw [left?_opens opens, left?_opens opens, ih]
      · by_cases closes : tag.closes = true
        · cases names with
          | nil =>
              rw [left?_unopened closes, left?_unopened closes]
              rfl
          | cons name names =>
              rw [left?_closes closes, left?_closes closes, ih]
              split <;> rfl
        · rw [left?_unexpected opens closes, left?_unexpected opens closes]
          rfl

theorem Viable.left? (h : Viable alternate tags) : ∃ names, left? alternate [] tags = some names := by
  obtain ⟨more, nested⟩ := h
  have whole := nested.left?_eq []
  rw [left?_append] at whole
  obtain ⟨names, found, -⟩ := Option.bind_eq_some_iff.1 whole
  exact ⟨names, found⟩

end Stencil.BlockTag
