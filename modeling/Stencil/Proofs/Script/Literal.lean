import Stencil.Proofs.Script.Expression
import Stencil.Proofs.Text.Replacing

/-! # Markup in scripts

A literal in either kind of quotes is read as its text. Markup is cut at its host markers when
its literal has been written, escapes and all. The pieces are the markup again unless the end
of an escape is taken for the beginning of a marker: the escape of the control U+001D ends in
the letter with which the marker begins.
-/

namespace Stencil.Script

open Text (replaceAll splitOn joinWith Apart)

/-! ## Characters between quotes -/

/-- A character as it stands in a literal between these quotes. -/
def escapeIn (quotation c : Char) : List Char :=
  if quotation = '\'' ∧ c = '"' then [c]
  else if quotation = '\'' ∧ c = '\'' then ['\\', c]
  else Json.escapedChar c

def escapedIn (quotation : Char) (cs : List Char) : List Char := cs.flatMap (escapeIn quotation)

/-- The quotes that literals stand in. -/
def IsQuotation (c : Char) : Prop := c = '"' ∨ c = '\''

theorem escapedIn_cons (quotation c : Char) (cs : List Char) :
    escapedIn quotation (c :: cs) = escapeIn quotation c ++ escapedIn quotation cs :=
  List.flatMap_cons

theorem escapedIn_append (quotation : Char) (cs ds : List Char) :
    escapedIn quotation (cs ++ ds) = escapedIn quotation cs ++ escapedIn quotation ds :=
  List.flatMap_append

/-- The forms of a character in a literal: itself, a backslash with a letter or a quote, or a
backslash with four digits. -/
inductive Escaping (quotation c : Char) : List Char → Prop
  | plain : c ≠ quotation → c ≠ '\\' → c ≠ '\n' → c ≠ '\r' → Escaping quotation c [c]
  | short {e : Char} : escape? e = some c → Escaping quotation c ['\\', e]
  | control : c.toNat < 0x20 → c ≠ '\r' →
      Escaping quotation c (['\\', 'u', '0', '0'] ++ Json.hexByte c.toNat)

theorem escaping_escapedChar (c : Char) : Escaping '"' c (Json.escapedChar c) := by
  unfold Json.escapedChar
  split
  case h_8 quote backslash _ _ newline line _ =>
    split
    · exact .control (by assumption) line
    · exact .plain quote backslash newline line
  all_goals exact .short rfl

theorem Escaping.between {quotation c : Char} {cs : List Char} (h : Escaping '"' c cs)
    (other : c ≠ quotation) : Escaping quotation c cs := by
  cases h with
  | plain _ backslash newline line => exact .plain other backslash newline line
  | short letter => exact .short letter
  | control low line => exact .control low line

theorem escaping_escapeIn {quotation : Char} (h : IsQuotation quotation) (c : Char) :
    Escaping quotation c (escapeIn quotation c) := by
  rcases h with rfl | rfl
  · exact escaping_escapedChar c
  · unfold escapeIn
    split
    · rename_i double
      rw [double.2]
      exact .plain (by decide) (by decide) (by decide) (by decide)
    · split
      · rename_i single
        rw [single.2]
        exact .short rfl
      · rename_i other
        exact (escaping_escapedChar c).between fun same => other ⟨rfl, same⟩

/-- The digits of an escaped control are no quotes or backslashes. -/
theorem mem_hexByte : ∀ n < 0x20, ∀ d ∈ Json.hexByte n, d ≠ '\\' ∧ d ≠ '\'' ∧ d ≠ '"' := by
  have all : ∀ n < 0x20, (Json.hexByte n).all (fun d => d ≠ '\\' ∧ d ≠ '\'' ∧ d ≠ '"') = true := by decide
  exact fun n small d mem => of_decide_eq_true (List.all_eq_true.1 (all n small) d mem)

theorem requote_plain {cs : List Char} (plain : ∀ c ∈ cs, c ≠ '\\' ∧ c ≠ '\'')
    (rest : List Char) : requote (cs ++ rest) = cs ++ requote rest := by
  induction cs with
  | nil => rfl
  | cons c cs ih =>
      obtain ⟨backslash, single⟩ := plain c List.mem_cons_self
      have further := ih fun d mem => plain d (List.mem_cons_of_mem c mem)
      rw [List.cons_append, requote.eq_5 _ _ (fun _ same => (backslash same).elim)
        (fun _ _ same => (backslash same).elim) single, further]
      rfl

/-- An escaped control is the same between quotes of both kinds. -/
theorem requote_control {n : Nat} (low : n < 0x20) (rest : List Char) :
    requote (['\\', 'u', '0', '0'] ++ Json.hexByte n ++ rest) =
      ['\\', 'u', '0', '0'] ++ Json.hexByte n ++ requote rest := by
  have digits : ∀ d ∈ ['0', '0'] ++ Json.hexByte n, d ≠ '\\' ∧ d ≠ '\'' := by
    intro d mem
    rcases List.mem_append.1 mem with mem | mem
    · simp only [List.mem_cons, List.not_mem_nil, or_false, or_self] at mem
      rw [mem]
      decide
    · obtain ⟨backslash, single, -⟩ := mem_hexByte n low d mem
      exact ⟨backslash, single⟩
  have escape := requote.eq_3 'u' (['0', '0'] ++ Json.hexByte n ++ rest) (by decide)
  exact escape.trans (congrArg (fun cs => '\\' :: 'u' :: cs) (requote_plain digits rest))

/-- What stands between double quotes is written anew for single ones. -/
theorem requote_escaped (cs : List Char) : requote (Json.escaped cs) = escapedIn '\'' cs := by
  induction cs with
  | nil => rfl
  | cons c cs ih =>
      have whole : Json.escaped (c :: cs) = Json.escapedChar c ++ Json.escaped cs := List.flatMap_cons
      rw [whole, escapedIn_cons, ← ih]
      unfold escapeIn
      split
      · rename_i double
        rw [double.2]
        rfl
      · split
        · rename_i single
          rw [single.2]
          rfl
        · rename_i double single
          have form := escaping_escapedChar c
          generalize Json.escapedChar c = written at form ⊢
          cases form with
          | plain _ backslash =>
              exact requote_plain (by simpa using ⟨backslash, fun same => single ⟨rfl, same⟩⟩) _
          | @short e letter =>
              refine requote.eq_3 e _ fun same => ?_
              rw [same] at letter
              cases letter
              exact double ⟨rfl, rfl⟩
          | control low => exact requote_control low _

/-- The quotes of the literal for a text. -/
def quotationOf (text : String) : Char :=
  if (Json.escaped text.toList).count '\'' < (Json.escaped text.toList).count '"' then '\'' else '"'

theorem isQuotation_quotationOf (text : String) : IsQuotation (quotationOf text) := by
  unfold quotationOf
  split
  · exact .inr rfl
  · exact .inl rfl

theorem escapedIn_double (cs : List Char) : escapedIn '"' cs = Json.escaped cs := by
  have same : escapeIn '"' = Json.escapedChar := by
    funext c
    rw [escapeIn, if_neg (fun h => absurd h.1 (by decide)), if_neg (fun h => absurd h.1 (by decide))]
  rw [escapedIn, same, Json.escaped]

theorem literal_eq (text : String) :
    literal text = quotationOf text :: escapedIn (quotationOf text) text.toList ++ [quotationOf text] := by
  unfold literal quotationOf
  split
  · rename_i fewer
    rw [if_pos fewer, requote_escaped]
  · rename_i more
    rw [if_neg more, escapedIn_double]

/-! ## Reading literals -/

theorem readChar?_escapeIn {quotation : Char} (h : IsQuotation quotation) (c : Char)
    (rest : List Char) : readChar? (escapeIn quotation c ++ rest) = some (c, rest) := by
  have form := escaping_escapeIn h c
  generalize escapeIn quotation c = written at form ⊢
  cases form with
  | plain _ backslash newline line => simp [readChar?, backslash, newline, line]
  | @short e letter =>
      have other : e ≠ 'u' := by
        rintro rfl
        cases letter
      rw [List.cons_append, List.cons_append, readChar?.eq_2 _ _ (by simpa using other), letter]
      rfl
  | control low => exact Json.readUnit?_control low rest

theorem Escaping.head {quotation c : Char} (h : IsQuotation quotation) {cs : List Char}
    (form : Escaping quotation c cs) : ∃ d more, cs = d :: more ∧ d ≠ quotation := by
  cases form with
  | plain other => exact ⟨_, _, rfl, other⟩
  | short => exact ⟨_, _, rfl, by rcases h with rfl | rfl <;> decide⟩
  | control => exact ⟨_, _, rfl, by rcases h with rfl | rfl <;> decide⟩

/-- Characters in a literal are read before what follows them. -/
theorem readText?_escapedIn {quotation : Char} (h : IsQuotation quotation) (cs rest : List Char) :
    readText? quotation (escapedIn quotation cs ++ rest) =
      (readText? quotation rest).map fun (more, rest) => (cs ++ more, rest) := by
  induction cs with
  | nil =>
      cases found : readText? quotation rest <;> simp [escapedIn, found]
  | cons c cs ih =>
      have first := readChar?_escapeIn h c (escapedIn quotation cs ++ rest)
      obtain ⟨d, more, form, other⟩ := (escaping_escapeIn h c).head h
      rw [escapedIn_cons, form, List.append_assoc, List.cons_append]
      rw [form, List.cons_append] at first
      rw [readText?, if_neg other, first]
      simp only
      rw [if_pos (by simp only [List.length_append]; omega), ih, Option.map_map]
      rfl

theorem readText?_closed (quotation : Char) (rest : List Char) :
    readText? quotation (quotation :: rest) = some ([], rest) := by
  rw [readText?, if_pos rfl]

theorem opening?_quotation {quotation : Char} (h : IsQuotation quotation) (cs : List Char) :
    opening? (quotation :: cs) = some (.text quotation, cs) := by
  rcases h with rfl | rfl <;> (rw [opening?, Json.skipSpace_cons rfl]; rfl)

/-- A text between quotes is read as the text. -/
theorem reads_quoted {quotation : Char} (h : IsQuotation quotation) (cs : List Char) :
    Reads (quotation :: escapedIn quotation cs ++ [quotation]) (.text (String.ofList cs)) := by
  intro rest
  rw [List.append_assoc, List.cons_append, read?, opening?_quotation h]
  simp [readText?_escapedIn h, readText?_closed]

theorem reads_quote (s : String) : Reads (Json.quote s).toList (.text s) := by
  have reads := reads_quoted (.inl rfl) s.toList
  rwa [escapedIn_double, String.ofList_toList, ← Json.quote_toList] at reads

theorem reads_literal (text : String) : Reads (literal text) (.text text) := by
  have reads := reads_quoted (isQuotation_quotationOf text) text.toList
  rwa [String.ofList_toList, ← literal_eq] at reads

/-! ## Cutting at the host marker -/

/-- What stands between two pieces of an array. -/
def seam (quotation : Char) : List Char := [quotation, ',', quotation]

/-- A control whose escape ends in the first letter of the host marker, and the rest of the
marker. -/
def torn : List Char := '\x1d' :: Marker.host.toList.tail

theorem host_ne_nil : Marker.host.toList ≠ [] := by decide

theorem mem_host : ∀ c ∈ Marker.host.toList,
    c ≠ '\\' ∧ c ≠ '"' ∧ c ≠ '\'' ∧ escapeIn '"' c = [c] ∧ escapeIn '\'' c = [c] := by
  have all : Marker.host.toList.all (fun c =>
      c ≠ '\\' ∧ c ≠ '"' ∧ c ≠ '\'' ∧ escapeIn '"' c = [c] ∧ escapeIn '\'' c = [c]) = true := by decide
  exact fun c mem => of_decide_eq_true (List.all_eq_true.1 all c mem)

/-- What an escape ends in is no beginning of a marker, with one exception. -/
theorem hexByte_ends : ∀ n < 0x20, n ≠ 0x0d → ∀ before ∈ (['\\', 'u', '0', '0'] ++ Json.hexByte n).tails,
    before.head? = some 'd' → before = ['d'] ∧ n = 0x1d := by
  decide

/-- A character in a literal in which a marker begins is its first letter, or the control. -/
theorem eq_of_suffix_escapeIn {quotation c : Char} (h : IsQuotation quotation) {before : List Char}
    (inside : before <:+ escapeIn quotation c) (begins : before.head? = some 'd') :
    before = ['d'] ∧ (c = 'd' ∨ c = '\x1d') := by
  have form := escaping_escapeIn h c
  generalize escapeIn quotation c = written at form inside
  cases form with
  | plain =>
      rcases List.suffix_cons_iff.1 inside with rfl | inside
      · cases begins
        exact ⟨rfl, .inl rfl⟩
      · rw [List.suffix_nil.1 inside] at begins
        cases begins
  | @short e letter =>
      rcases List.suffix_cons_iff.1 inside with rfl | inside
      · cases begins
      · rcases List.suffix_cons_iff.1 inside with rfl | inside
        · cases begins
          cases letter
        · rw [List.suffix_nil.1 inside] at begins
          cases begins
  | control low line =>
      have other : c.toNat ≠ 0x0d := fun same => line (Char.ext (UInt32.toNat_inj.1 same))
      obtain ⟨rfl, same⟩ :=
        hexByte_ends c.toNat low other before ((List.mem_tails _ _).2 inside) begins
      exact ⟨rfl, .inr (Char.ext (UInt32.toNat_inj.1 same))⟩

section Tails

variable {quotation : Char} (h : IsQuotation quotation) {tail : List Char}
  (ends : ∀ c ∈ tail.head?, c = '\\' ∨ IsQuotation c)

include h ends

/-- Letters that begin an escaped text begin the text. -/
theorem prefix_of_escapedIn {letters : List Char}
    (plain : ∀ c ∈ letters, c ≠ '\\' ∧ c ≠ '"' ∧ c ≠ '\'') {cs : List Char}
    (begins : letters <+: escapedIn quotation cs ++ tail) : letters <+: cs := by
  induction letters generalizing cs with
  | nil => exact List.nil_prefix
  | cons x letters ih =>
      obtain ⟨backslash, double, single⟩ := plain x List.mem_cons_self
      cases cs with
      | nil =>
          obtain ⟨more, same⟩ := begins
          have head : x ∈ tail.head? := by
            rw [escapedIn, List.flatMap_nil, List.nil_append] at same
            rw [← same]
            rfl
          rcases ends x head with rfl | rfl | rfl
          · exact (backslash rfl).elim
          · exact (double rfl).elim
          · exact (single rfl).elim
      | cons c cs =>
          rw [escapedIn_cons, List.append_assoc] at begins
          have form := escaping_escapeIn h c
          generalize escapeIn quotation c = written at form begins
          cases form with
          | plain =>
              obtain ⟨rfl, further⟩ := List.cons_prefix_cons.1 begins
              exact List.cons_prefix_cons.2
                ⟨rfl, ih (fun d mem => plain d (List.mem_cons_of_mem x mem)) further⟩
          | short => exact (backslash (List.cons_prefix_cons.1 begins).1).elim
          | control => exact (backslash (List.cons_prefix_cons.1 begins).1).elim

/-- No marker begins in a character and ends behind it, unless one begins there in the text. -/
theorem apart_escapeIn {c : Char} {cs : List Char} (whole : ¬Marker.host.toList <+: c :: cs)
    (untorn : ¬torn <+: c :: cs) :
    Apart Marker.host.toList (escapeIn quotation c) (escapedIn quotation cs ++ tail) := by
  intro before after some_before some_after inside begins same
  have begins_d : before.head? = some 'd' := by
    cases before with
    | nil => exact (some_before rfl).elim
    | cons b before => exact congrArg List.head? same
  obtain ⟨rfl, first⟩ := eq_of_suffix_escapeIn h inside begins_d
  have rest : after = Marker.host.toList.tail := congrArg List.tail same
  rw [rest] at begins
  have further := prefix_of_escapedIn h ends
    (fun c mem => by
      obtain ⟨backslash, double, single, -⟩ := mem_host c (List.mem_of_mem_tail mem)
      exact ⟨backslash, double, single⟩) begins
  rcases first with rfl | rfl
  · exact whole (List.cons_prefix_cons.2 ⟨rfl, further⟩)
  · exact untorn (List.cons_prefix_cons.2 ⟨rfl, further⟩)

omit ends in
theorem escapedIn_host (cs : List Char) :
    escapedIn quotation (Marker.host.toList ++ cs) = Marker.host.toList ++ escapedIn quotation cs := by
  have same : escapedIn quotation Marker.host.toList = Marker.host.toList := by
    rcases h with rfl | rfl <;> decide
  rw [escapedIn_append, same]

omit ends in
theorem not_host_infix_escapeIn (c : Char) : ¬Marker.host.toList <:+: escapeIn quotation c := by
  intro inside
  have short : (escapeIn quotation c).length ≤ 6 := by
    have form := escaping_escapeIn h c
    generalize escapeIn quotation c = written at form ⊢
    cases form <;> simp [Json.hexByte]
  have long : Marker.host.toList.length = 11 := by decide
  have := inside.length_le
  omega

/-- Markers are found in the escaped text where they stand in the text, if none is torn. -/
theorem replaceAll_escapedIn : (cs : List Char) → ¬torn <:+: cs →
    replaceAll Marker.host.toList (seam quotation) (escapedIn quotation cs ++ tail) =
      joinWith (seam quotation) ((splitOn Marker.host.toList cs).map (escapedIn quotation)) ++
        replaceAll Marker.host.toList (seam quotation) tail
  | [], _ => by
      have empty : splitOn Marker.host.toList [] = [[]] := by
        rw [splitOn]
        rfl
      rw [empty]
      rfl
  | c :: cs, untorn => by
      by_cases here : Marker.host.toList <+: c :: cs
      · obtain ⟨rest, same⟩ := here
        have shorter : rest.length < (c :: cs).length := by
          have := List.length_pos_iff.2 host_ne_nil
          rw [← same, List.length_append]
          omega
        rw [← same] at untorn ⊢
        have further := replaceAll_escapedIn rest fun inside =>
          untorn (inside.trans (List.suffix_append _ rest).isInfix)
        rw [escapedIn_host h, List.append_assoc, Text.replaceAll_found _ host_ne_nil, further,
          Text.splitOn_found host_ne_nil, List.map_cons,
          Text.joinWith_cons_of_ne_nil _ _ (by simpa using Text.splitOn_ne_nil _ rest),
          List.append_assoc, List.append_assoc]
        rfl
      · rw [List.infix_cons_iff, not_or] at untorn
        obtain ⟨piece, more, rest, whole⟩ := Text.splitOn_cons here
        have further := replaceAll_escapedIn cs untorn.2
        rw [rest] at further
        have split := Text.replaceAll_append (seam quotation) host_ne_nil _ _
          (apart_escapeIn h ends here untorn.1)
        rw [escapedIn_cons, List.append_assoc, split,
          Text.replaceAll_of_absent _ host_ne_nil (not_host_infix_escapeIn h c), further, whole,
          List.map_cons, List.map_cons, escapedIn_cons, Text.joinWith_append_cons, List.append_assoc]
termination_by cs => cs.length
decreasing_by
  · exact shorter
  · exact Nat.lt_succ_self cs.length

end Tails

/-! ## The literal for markup -/

/-- The texts of expressions. -/
def texts? : List Expression → Option (List String)
  | [] => some []
  | .text s :: more => (texts? more).map fun texts => s :: texts
  | _ :: _ => none

/-- The markup that an expression denotes: a text, or texts with host markers between them. -/
def Expression.markup? : Expression → Option String
  | .text s => some s
  | .array items => (texts? items).map fun parts => (Skeleton.split parts).markup
  | _ => none

/-- The markup that a literal denotes, which must be all of the text. -/
def markup? (text : String) : Option String :=
  match read? text.toList with
  | some (e, []) => e.markup?
  | _ => none

/-- The array of the pieces between host markers. -/
def cutLiteral (markup : String) : List Char :=
  '[' :: quotationOf markup :: replaceAll Marker.host.toList (seam (quotationOf markup))
    (escapedIn (quotationOf markup) markup.toList ++ [quotationOf markup]) ++ [']']

theorem not_host_prefix {quotation : Char} (h : IsQuotation quotation) (cs : List Char) :
    ¬Marker.host.toList <+: quotation :: cs := by
  intro begins
  have first : 'd' = quotation := (List.cons_prefix_cons.1 begins).1
  rcases h with rfl | rfl <;> cases first

theorem cutLiteral_eq (markup : String) :
    cutLiteral markup = '[' :: joinWith (seam (quotationOf markup))
      (splitOn Marker.host.toList (literal markup)) ++ [']'] := by
  have first := not_host_prefix (isQuotation_quotationOf markup)
    (escapedIn (quotationOf markup) markup.toList ++ [quotationOf markup])
  rw [cutLiteral, ← Text.replaceAll_cons _ first, literal_eq]
  rfl

theorem markupLiteral_toList (markup : String) :
    (markupLiteral markup).toList =
      if Text.byteLength (cutLiteral markup) < Text.byteLength (literal markup) then cutLiteral markup
      else literal markup := by
  have first : (literal markup).take 1 = [quotationOf markup] := by
    rw [literal_eq]
    rfl
  rw [markupLiteral, first, cutLiteral_eq, String.toList_ofList]
  rfl

theorem replaceAll_single (new : List Char) (c : Char) :
    replaceAll Marker.host.toList new [c] = [c] := by
  refine Text.replaceAll_of_absent new host_ne_nil fun inside => ?_
  have short := inside.length_le
  rw [List.length_singleton] at short
  exact absurd short (by decide)

/-- Quoted pieces with commas between them are the pieces with seams, in one pair of quotes. -/
theorem joinWith_seam (quotation : Char) : (pieces : List (List Char)) → pieces ≠ [] →
    quotation :: joinWith (seam quotation) pieces ++ [quotation] =
      [','].intercalate (pieces.map fun piece => quotation :: piece ++ [quotation])
  | [], h => (h rfl).elim
  | [piece], _ => by simp [joinWith]
  | piece :: next :: more, _ => by
      have further := joinWith_seam quotation (next :: more) (by simp)
      rw [List.map_cons] at further
      rw [List.map_cons, List.map_cons, List.intercalate_cons_cons, ← further,
        Text.joinWith_cons_of_ne_nil _ _ (List.cons_ne_nil next more)]
      simp [seam]

theorem reads_pieces {quotation : Char} (h : IsQuotation quotation) (pieces : List (List Char)) :
    List.Forall₂ Reads
      (pieces.map fun piece => quotation :: escapedIn quotation piece ++ [quotation])
      (pieces.map fun piece => .text (String.ofList piece)) := by
  induction pieces with
  | nil => exact .nil
  | cons piece pieces ih => exact .cons (reads_quoted h piece) ih

theorem markup?_pieces (pieces : List (List Char)) :
    (Expression.array (pieces.map fun piece => .text (String.ofList piece))).markup? =
      some (String.ofList (joinWith Marker.host.toList pieces)) := by
  have texts : texts? (pieces.map fun piece => .text (String.ofList piece)) =
      some (pieces.map String.ofList) := by
    induction pieces with
    | nil => rfl
    | cons piece pieces ih => simp [texts?, ih]
  have inverse : String.toList ∘ String.ofList = id := funext fun _ => String.toList_ofList
  simp [Expression.markup?, texts, Skeleton.markup, inverse]

/-- The literal for markup is read as an expression that denotes it, if no marker is torn. -/
theorem reads_markupLiteral {markup : String} (untorn : ¬torn <:+: markup.toList) :
    ∃ e, Reads (markupLiteral markup).toList e ∧ e.markup? = some markup := by
  rw [markupLiteral_toList]
  split
  · have h := isQuotation_quotationOf markup
    have ends : ∀ c ∈ [quotationOf markup].head?, c = '\\' ∨ IsQuotation c := by
      rintro c ⟨⟩
      exact .inr h
    have cut := replaceAll_escapedIn h ends markup.toList untorn
    rw [replaceAll_single] at cut
    have some_piece := Text.splitOn_ne_nil Marker.host.toList markup.toList
    have reads := reads_array (reads_pieces h (splitOn Marker.host.toList markup.toList))
    have seams := joinWith_seam (quotationOf markup)
      ((splitOn Marker.host.toList markup.toList).map (escapedIn (quotationOf markup))) (by simpa using some_piece)
    rw [List.map_map] at seams
    refine ⟨.array ((splitOn Marker.host.toList markup.toList).map fun piece =>
      .text (String.ofList piece)), ?_, ?_⟩
    · have same : cutLiteral markup = '[' :: (quotationOf markup :: joinWith (seam (quotationOf markup))
          ((splitOn Marker.host.toList markup.toList).map (escapedIn (quotationOf markup))) ++
            [quotationOf markup]) ++ [']'] := by
        rw [cutLiteral, cut]
        rfl
      rw [same, seams]
      exact reads
    · rw [markup?_pieces, Text.joinWith_splitOn, String.ofList_toList]
  · exact ⟨.text markup, reads_literal markup, rfl⟩

/-! ## Torn markers -/

section Torn

variable {quotation : Char} (h : IsQuotation quotation) (rest : List Char)

/-- The beginning of the escape that a torn marker leaves. -/
def stump : List Char := ['\\', 'u', '0', '0', '1']

include h

theorem readText?_stump : readText? quotation (stump ++ quotation :: rest) = none := by
  have other : '\\' ≠ quotation := by rcases h with rfl | rfl <;> decide
  have digits : Json.unit? '0' '0' '1' quotation = none := by rcases h with rfl | rfl <;> decide
  have unread : readChar? (stump ++ quotation :: rest) = none := by
    simp [stump, readChar?, Json.readUnit?, digits]
  rw [stump] at unread ⊢
  rw [List.cons_append, readText?, if_neg other]
  rw [List.cons_append] at unread
  rw [unread]

/-- An array in which a piece ends within an escape is not read. -/
theorem readItems?_stump : (pieces : List (List Char)) → pieces ≠ [] →
    readItems? ']' (quotation :: (joinWith (seam quotation) (pieces.map (escapedIn quotation)) ++
      (stump ++ quotation :: rest))) = none
  | [], some_piece => (some_piece rfl).elim
  | [piece], _ => by
      have first : read? (quotation :: (escapedIn quotation piece ++ (stump ++ quotation :: rest))) =
          none := by
        rw [read?, opening?_quotation h]
        simp [readText?_escapedIn h, readText?_stump h]
      rw [List.map_singleton, joinWith, readItems?, first]
  | piece :: next :: more, _ => by
      have further := readItems?_stump (next :: more) (List.cons_ne_nil next more)
      have first := reads_quoted h piece (',' :: quotation ::
        (joinWith (seam quotation) ((next :: more).map (escapedIn quotation)) ++
          (stump ++ quotation :: rest)))
      have whole : quotation :: (joinWith (seam quotation) ((piece :: next :: more).map (escapedIn quotation)) ++
          (stump ++ quotation :: rest)) = quotation :: escapedIn quotation piece ++ [quotation] ++
          ',' :: quotation :: (joinWith (seam quotation) ((next :: more).map (escapedIn quotation)) ++
            (stump ++ quotation :: rest)) := by
        rw [List.map_cons, Text.joinWith_cons_of_ne_nil (seam quotation) _ (by simp)]
        simp [seam]
      have comma := mark?_self (show Json.isSpace ',' = false from rfl)
      have other := mark?_other (show Json.isSpace ',' = false from rfl) (show ',' ≠ ']' by decide)
      rw [whole, readItems?, first]
      simp only [other, comma, further]
      split <;> rfl

end Torn

theorem escapedIn_torn {quotation : Char} (h : IsQuotation quotation) :
    escapedIn quotation torn = stump ++ Marker.host.toList := by
  rcases h with rfl | rfl <;> decide

/-- The escape in front of the rest of a torn marker is cut. -/
theorem replaceAll_torn {quotation : Char} (h : IsQuotation quotation) (back : List Char) :
    ∃ rest, replaceAll Marker.host.toList (seam quotation)
        (escapedIn quotation (torn ++ back) ++ [quotation]) = stump ++ quotation :: rest := by
  have apart : Apart Marker.host.toList stump
      (Marker.host.toList ++ (escapedIn quotation back ++ [quotation])) :=
    Text.apart_of_first (show Marker.host.toList.head? = some 'd' by decide) (by decide)
  have whole : replaceAll Marker.host.toList (seam quotation) stump = stump := by
    refine Text.replaceAll_of_absent _ host_ne_nil fun inside => ?_
    exact absurd inside.length_le (by decide)
  rw [escapedIn_append, escapedIn_torn h, List.append_assoc, List.append_assoc,
    Text.replaceAll_append _ host_ne_nil _ _ apart, whole, Text.replaceAll_found _ host_ne_nil]
  exact ⟨_, rfl⟩

/-- With a torn marker, what is written for markup is not read at all. -/
theorem read?_cutLiteral {markup : String} (inside : torn <:+: markup.toList) :
    read? (cutLiteral markup) = none := by
  have h := isQuotation_quotationOf markup
  obtain ⟨front, back, same, untorn⟩ := Text.exists_first (by decide) markup.toList inside
  obtain ⟨rest, tail⟩ := replaceAll_torn h back
  have ends : ∀ c ∈ (escapedIn (quotationOf markup) (torn ++ back) ++ [quotationOf markup]).head?,
      c = '\\' ∨ IsQuotation c := by
    rintro c begins
    rw [escapedIn_append, escapedIn_torn h] at begins
    cases begins
    exact .inl rfl
  have cut := replaceAll_escapedIn h ends front untorn
  have some_piece := Text.splitOn_ne_nil Marker.host.toList front
  have unread := readItems?_stump h (rest ++ [']']) _ some_piece
  have form : cutLiteral markup = '[' :: quotationOf markup ::
      (joinWith (seam (quotationOf markup)) ((splitOn Marker.host.toList front).map
        (escapedIn (quotationOf markup))) ++ (stump ++ quotationOf markup :: (rest ++ [']']))) := by
    rw [cutLiteral, same, List.append_assoc front, escapedIn_append, List.append_assoc, cut, tail]
    simp [List.append_assoc]
  have solid : Json.isSpace (quotationOf markup) = false ∧ quotationOf markup ≠ ']' := by
    rcases h with h | h <;> rw [h] <;> decide
  rw [form, read?, opening?, Json.skipSpace_cons rfl]
  simp [readList?, mark?_other solid.1 solid.2, unread]

/-- Markup with a torn marker is written in pieces. -/
theorem markupLiteral_torn {markup : String} (inside : torn <:+: markup.toList) :
    (markupLiteral markup).toList = cutLiteral markup := by
  have h := isQuotation_quotationOf markup
  have held : Marker.host.toList <:+: literal markup := by
    obtain ⟨front, back, same⟩ := inside
    refine ⟨quotationOf markup :: escapedIn (quotationOf markup) front ++ stump,
      escapedIn (quotationOf markup) back ++ [quotationOf markup], ?_⟩
    rw [literal_eq, ← same, escapedIn_append, escapedIn_append, escapedIn_torn h]
    simp
  have seams : Text.byteLength (seam (quotationOf markup)) + 8 = Text.byteLength Marker.host.toList := by
    rcases h with h | h <;> rw [h] <;> decide
  have saved := Text.byteLength_joinWith seams (splitOn Marker.host.toList (literal markup))
  have pieces := Text.two_le_length_splitOn host_ne_nil held
  rw [Text.joinWith_splitOn] at saved
  rw [markupLiteral_toList, if_pos]
  rw [cutLiteral_eq, Text.byteLength_append, Text.byteLength_cons]
  have brackets : '['.utf8Size = 1 ∧ Text.byteLength [']'] = 1 := by decide
  omega

/-- The literal for markup denotes the markup, unless a marker in it is torn. -/
theorem markup?_markupLiteral (markup : String) :
    markup? (markupLiteral markup) = some markup ↔ ¬torn <:+: markup.toList := by
  constructor
  · intro denotes inside
    rw [markup?, markupLiteral_torn inside, read?_cutLiteral inside] at denotes
    cases denotes
  · intro untorn
    obtain ⟨e, reads, denotes⟩ := reads_markupLiteral untorn
    have whole := reads []
    rw [List.append_nil] at whole
    rw [markup?, whole]
    exact denotes

end Stencil.Script
