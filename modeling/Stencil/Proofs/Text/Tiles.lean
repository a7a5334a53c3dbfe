import Stencil.Directive

/-! # Literal pieces

The pieces between the things that a reader recognises hold none of these things. For
directives this is so because more text behind a directive leaves it one.
-/

namespace Stencil

namespace Text

variable {α : Type} {read : Reader α} {print : α → List Char}

/-- What a reader recognises it also recognises where the text goes on. -/
def Reader.Grows (read : Reader α) : Prop :=
  ∀ text more : List Char, read text ≠ none → read (text ++ more) ≠ none

/-- The text before the first thing holds nothing that is recognised. -/
theorem find?_before (reads : read.Reads print) (grows : read.Grows) {text : List Char}
    {found : Found α} (h : find? read text = some found) : find? read found.before = none := by
  induction text generalizing found with
  | nil => cases h
  | cons c cs ih =>
      rw [find?] at h
      cases here : read (c :: cs) with
      | some pair =>
          rw [here] at h
          cases h
          rfl
      | none =>
          rw [here] at h
          obtain ⟨inner, further, rfl⟩ := Option.map_eq_some_iff.1 h
          have whole := find?_eq_some reads further
          have nothing : read (c :: inner.before) = none := by
            refine Classical.byContradiction fun there => ?_
            have longer := grows (c :: inner.before) (print inner.thing ++ inner.after) there
            rw [List.cons_append, ← List.append_assoc, ← whole, here] at longer
            exact longer rfl
          rw [find?, nothing]
          simp [ih further]

/-- Neither a piece before a thing nor the last piece holds anything that is recognised. -/
theorem find?_pieces (reads : read.Reads print) (grows : read.Grows) (text : List Char) :
    (∀ tile ∈ (tiles read text).1, find? read tile.1 = none) ∧
      find? read (tiles read text).2 = none := by
  fun_induction tiles read text with
  | case1 text nothing => exact ⟨by simp, nothing⟩
  | case2 text found h shorter more trailing rest ih =>
      rw [rest] at ih
      refine ⟨fun tile mem => ?_, ih.2⟩
      rcases List.mem_cons.1 mem with rfl | mem
      · exact find?_before reads grows h
      · exact ih.1 tile mem
  | case3 text found h longer => exact (longer (find?_after_length_lt reads h)).elim

/-- Every thing among the tiles is recognised somewhere. -/
theorem read_of_mem_tiles {text : List Char} {tile : List Char × α} (mem : tile ∈ (tiles read text).1) :
    ∃ inside rest, read inside = some (tile.2, rest) := by
  have found_there {text : List Char} {found : Found α} (h : find? read text = some found) :
      ∃ inside rest, read inside = some (found.thing, rest) := by
    induction text generalizing found with
    | nil => cases h
    | cons c cs ih =>
        rw [find?] at h
        split at h
        · rename_i thing after here
          cases h
          exact ⟨c :: cs, after, here⟩
        · obtain ⟨inner, further, rfl⟩ := Option.map_eq_some_iff.1 h
          have there := ih further
          exact there
  fun_induction tiles read text with
  | case1 => cases mem
  | case2 text found h shorter more trailing rest ih =>
      rcases List.mem_cons.1 mem with rfl | mem
      · exact found_there h
      · rw [rest] at ih
        exact ih mem
  | case3 => cases mem

/-! ## Texts in which nothing is recognised -/

/-- Nothing is recognised anywhere in the text. -/
def Reader.Misses (read : Reader α) (text : List Char) : Prop :=
  ∀ front back, text = front ++ back → read back = none

/-- What is recognised does not depend on the text behind it. -/
def Reader.Local (read : Reader α) (print : α → List Char) : Prop :=
  ∀ {text a rest}, read text = some (a, rest) → ∀ more, read (print a ++ more) = some (a, more)

theorem Reader.Local.grows (here : read.Local print) (reads : read.Reads print) : read.Grows := by
  intro text more there
  obtain ⟨⟨a, rest⟩, found⟩ := Option.ne_none_iff_exists'.1 there
  rw [reads.eq_append found, List.append_assoc, here found]
  nofun

theorem misses_nil (reads : read.Reads print) : read [] = none := by
  cases found : read [] with
  | none => rfl
  | some pair =>
      have whole := reads.eq_append found
      exact (reads.ne_nil found (List.append_eq_nil_iff.1 whole.symm).1).elim

theorem find?_eq_none_iff (reads : read.Reads print) {text : List Char} :
    find? read text = none ↔ read.Misses text := by
  constructor
  · intro nothing front
    induction front generalizing text with
    | nil =>
        rintro _ rfl
        cases text with
        | nil => exact misses_nil reads
        | cons c cs =>
            rw [find?] at nothing
            split at nothing
            · cases nothing
            · assumption
    | cons c front ih =>
        rintro back rfl
        rw [List.cons_append, find?] at nothing
        split at nothing
        · cases nothing
        · exact ih (Option.map_eq_none_iff.1 nothing) back rfl
  · intro nothing
    induction text with
    | nil => rfl
    | cons c cs ih =>
        have here := nothing [] (c :: cs) rfl
        have further := ih fun front back same => nothing (c :: front) back (by rw [same]; rfl)
        rw [find?, here]
        simp [further]

theorem tiles_of_misses (reads : read.Reads print) {text : List Char} (h : read.Misses text) :
    tiles read text = ([], text) := by
  rw [tiles, (find?_eq_none_iff reads).2 h]

/-- Nothing is recognised across a character that is part of nothing that is recognised. -/
theorem Reader.Misses.append_cons {c : Char} {as bs : List Char} (here : read.Local print)
    (reads : read.Reads print) (out : ∀ {text a rest}, read text = some (a, rest) → c ∉ print a)
    (h : read.Misses as) (k : read.Misses bs) : read.Misses (as ++ c :: bs) := by
  intro front back same
  rcases List.append_eq_append_iff.1 same with ⟨_ | ⟨d, inner⟩, rfl, rest⟩ | ⟨inner, rfl, rfl⟩
  · rw [List.nil_append] at rest
    refine Option.eq_none_iff_forall_ne_some.2 fun (a, more) found => ?_
    have whole := reads.eq_append (rest ▸ found)
    cases begins : print a with
    | nil => exact reads.ne_nil found begins
    | cons e text =>
        rw [begins] at whole
        obtain ⟨rfl, -⟩ := List.cons.inj whole
        exact out found (begins ▸ List.mem_cons_self)
  · obtain ⟨rfl, rfl⟩ := List.cons.inj rest
    exact k inner back rfl
  · refine Option.eq_none_iff_forall_ne_some.2 fun (a, more) found => ?_
    -- What is recognised lies before the character, and is recognised there as well.
    rcases List.append_eq_append_iff.1 (reads.eq_append found) with ⟨left, whole, rest⟩ | ⟨left, rfl, rest⟩
    · cases left with
      | nil =>
          rw [List.append_nil] at whole
          have there := here found []
          rw [List.append_nil, whole, h front inner rfl] at there
          cases there
      | cons d left =>
          obtain ⟨rfl, -⟩ := List.cons.inj rest
          exact out found (by simp [whole])
    · have there := here found left
      rw [h front _ rfl] at there
      cases there

/-! ## Going on -/

/-- Everything that the reader recognises, in order. -/
def things (read : Reader α) (text : List Char) : List α := (tiles read text).1.map Prod.snd

/-- A character at which nothing is recognised is passed over. -/
theorem things_skip (reads : read.Reads print) {c : Char} {cs : List Char} (h : read (c :: cs) = none) :
    things read (c :: cs) = things read cs := by
  have first : find? read (c :: cs) =
      (find? read cs).map fun found => { found with before := c :: found.before } := by rw [find?, h]
  rw [things, things, tiles, tiles, first]
  cases found : find? read cs with
  | none => rfl
  | some found' =>
      have shorter := find?_after_length_lt reads found
      have whole := Nat.lt_succ_of_lt shorter
      simp [shorter, whole]

/-- What is recognised at the beginning of a text comes first. -/
theorem things_read (reads : read.Reads print) {text : List Char} {a : α} {rest : List Char}
    (h : read text = some (a, rest)) : things read text = a :: things read rest := by
  cases text with
  | nil =>
      rw [misses_nil reads] at h
      cases h
  | cons c cs =>
      have first : find? read (c :: cs) = some ⟨[], a, rest⟩ := by rw [find?, h]
      have shorter : rest.length < cs.length + 1 := find?_after_length_lt reads first
      rw [things, things, tiles, first]
      simp [shorter]

section Naming

variable {β : Type} {read' : Reader β} {f : α → β}

theorem find?_map (h : ∀ cs, read' cs = (read cs).map fun (a, rest) => (f a, rest)) (text : List Char) :
    find? read' text =
      (find? read text).map fun found => ⟨found.before, f found.thing, found.after⟩ := by
  induction text with
  | nil => rfl
  | cons c cs ih =>
      rw [find?, find?, h, ih]
      cases read (c :: cs) with
      | none => cases find? read cs <;> rfl
      | some found => rfl

/-- The same places are found if what is read at each is given another form. -/
theorem tiles_map (h : ∀ cs, read' cs = (read cs).map fun (a, rest) => (f a, rest)) (text : List Char) :
    tiles read' text =
      ((tiles read text).1.map fun (before, a) => (before, f a), (tiles read text).2) := by
  fun_induction tiles read text with
  | case1 text nothing => rw [tiles, find?_map h, nothing]; rfl
  | case2 text found there shorter more trailing rest ih =>
      rw [rest] at ih
      rw [tiles, find?_map h, there]
      simp [shorter, ih]
  | case3 text found there longer =>
      rw [tiles, find?_map h, there]
      simp [longer]

end Naming

/-- A thing that is all of the text is the only tile. -/
theorem tiles_of_whole {text : List Char} {a : α} (h : find? read text = some ⟨[], a, []⟩)
    (some_text : text ≠ []) : tiles read text = ([([], a)], []) := by
  have rest : tiles read [] = ([], []) := by
    rw [tiles]
    rfl
  rw [tiles, h]
  simp [rest, List.length_pos_iff.2 some_text]

theorem find?_eq_none_of_not {c : Char} (starts : ∀ text, text.head? ≠ some c → read text = none)
    {text : List Char} (out : c ∉ text) : find? read text = none := by
  induction text with
  | nil => rfl
  | cons d cs ih =>
      rw [List.mem_cons, not_or] at out
      have here : read (d :: cs) = none := starts _ (by simpa using fun same => out.1 same.symm)
      rw [find?, here, ih out.2]
      rfl

theorem length_le_byteLength (cs : List Char) : cs.length ≤ byteLength cs := by
  induction cs with
  | nil => simp
  | cons c cs ih =>
      have some_byte := Char.utf8Size_pos c
      simp only [List.length_cons, byteLength_cons]
      omega

theorem eq_nil_of_byteLength {cs : List Char} (h : byteLength cs = 0) : cs = [] := by
  have short := length_le_byteLength cs
  exact List.eq_nil_of_length_eq_zero (by omega)

theorem utf8ByteSize_ofList (cs : List Char) : (String.ofList cs).utf8ByteSize = byteLength cs := by
  induction cs with
  | nil => rfl
  | cons c cs ih => simp [String.ofList_cons, String.utf8ByteSize_append, ih]

end Text

namespace Mustache

theorem closing?_ne_none {text : List Char} :
    closing? text ≠ none ↔ ∃ rest, text = '}' :: '}' :: rest := by
  constructor
  · intro h
    unfold closing? at h
    split at h
    · exact ⟨_, rfl⟩
    · exact ⟨_, rfl⟩
    · exact (h rfl).elim
  · rintro ⟨rest, rfl⟩
    unfold closing?
    split <;> simp_all

/-- Where a directive begins: two braces, something between, and two braces. -/
theorem at?_ne_none {text : List Char} :
    at? text ≠ none ↔ ∃ inner rest, text = '{' :: '{' :: inner ∧
      inner.dropWhile (· != '}') = '}' :: '}' :: rest ∧
      ((inner.takeWhile (· != '}')).head? = some '{' ∨
        (Text.trim (inner.takeWhile (· != '}'))).isEmpty = false) := by
  constructor
  · intro h
    unfold at? at h
    split at h
    · rename_i inner
      cases closed : closing? (inner.dropWhile (· != '}')) with
      | none => simp [closed] at h
      | some pair =>
          obtain ⟨rest, same⟩ := closing?_ne_none.1 (by rw [closed]; nofun)
          refine ⟨inner, rest, rfl, same, ?_⟩
          rw [closed] at h
          simp only at h
          split at h
          · rename_i deeper begins
            exact .inl (by rw [begins]; rfl)
          · refine .inr ?_
            split at h
            · exact (h rfl).elim
            · rename_i filled
              simpa only [Bool.not_eq_true] using filled
    · exact (h rfl).elim
  · rintro ⟨inner, rest, rfl, closed, body⟩
    obtain ⟨pair, found⟩ := Option.ne_none_iff_exists'.1 (closing?_ne_none.2 ⟨rest, closed⟩)
    rw [at?, found]
    simp only
    split
    · split <;> nofun
    · rename_i other
      have filled : (Text.trim (inner.takeWhile (· != '}'))).isEmpty = false := by
        refine body.resolve_left fun begins => ?_
        obtain ⟨deeper, same⟩ := List.head?_eq_some_iff.1 begins
        exact other deeper same
      simp [filled]

/-- More text behind a directive leaves it one. -/
theorem grows_at? : Text.Reader.Grows at? := by
  intro text more h
  obtain ⟨inner, rest, rfl, closed, body⟩ := at?_ne_none.1 h
  have whole := List.takeWhile_append_dropWhile (p := fun c => c != '}') (l := inner)
  have all : ∀ c ∈ inner.takeWhile (· != '}'), (c != '}') = true := fun c mem =>
    List.all_eq_true.1 List.all_takeWhile c mem
  rw [closed] at whole
  have split_ : inner ++ more =
      inner.takeWhile (· != '}') ++ '}' :: '}' :: (rest ++ more) := by
    conv => lhs; rw [← whole]
    simp
  refine at?_ne_none.2 ⟨inner ++ more, rest ++ more, rfl, ?_, ?_⟩
  · rw [split_, List.dropWhile_append_of_pos all]
    rfl
  · have same : (inner ++ more).takeWhile (· != '}') = inner.takeWhile (· != '}') := by
      rw [split_, List.takeWhile_append_of_pos all]
      simp
    rwa [same]

/-- A directive begins with a brace. -/
theorem at?_eq_none {text : List Char} (h : text.head? ≠ some '{') : at? text = none := by
  refine Classical.byContradiction fun there => ?_
  obtain ⟨inner, rest, rfl, -⟩ := at?_ne_none.1 there
  exact h rfl

end Mustache

end Stencil
