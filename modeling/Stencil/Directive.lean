import Stencil.Fault
import Stencil.RenderKind
import Stencil.Text.Blank
import Stencil.Text.Tiles

/-! # Directives in text

A directive stands between two or three braces. The scan cuts a text into literal
pieces and directives: each directive is the first one in what is left, and the
pieces in order are the text again. A directive names a render kind and a key.
-/

namespace Stencil

/-- Braces with something between them. -/
structure Mustache where
  opening : List Char
  /-- What stands between the braces, surrounding white space included. -/
  body : List Char
  closing : List Char
  deriving DecidableEq, Repr, Inhabited

namespace Mustache

/-- The whole directive as it stands in the text. -/
def text (m : Mustache) : List Char := m.opening ++ m.body ++ m.closing

/-- What stands between the braces, without surrounding white space. -/
def content (m : Mustache) : List Char := Text.trim m.body

/-- Whether as many braces close the directive as open it. -/
def isBalanced (m : Mustache) : Bool := m.opening.length == m.closing.length

def isTriple (m : Mustache) : Bool := m.opening.length == 3

/-- The closing braces at the beginning of a text, three rather than two. -/
def closing? : List Char → Option (List Char × List Char)
  | '}' :: '}' :: '}' :: rest => some (['}', '}', '}'], rest)
  | '}' :: '}' :: rest => some (['}', '}'], rest)
  | _ => none

theorem closing?_eq_some {text closing rest : List Char}
    (h : closing? text = some (closing, rest)) :
    text = closing ++ rest := by
  unfold closing? at h
  split at h
  · obtain ⟨rfl, rfl⟩ := by simpa using h
    rfl
  · obtain ⟨rfl, rfl⟩ := by simpa using h
    rfl
  · simp at h

/-- The directive at the beginning of a text, and the text after it. Three braces open
it if something stands behind them, else two; the next closing brace ends it. -/
def at? : List Char → Option (Mustache × List Char)
  | '{' :: '{' :: inner =>
      match closing? (inner.dropWhile (· != '}')) with
      | none => none
      | some (closing, rest) =>
          match inner.takeWhile (· != '}') with
          | '{' :: deeper =>
              if (Text.trim deeper).isEmpty then some (⟨['{', '{'], '{' :: deeper, closing⟩, rest)
              else some (⟨['{', '{', '{'], deeper, closing⟩, rest)
          | body =>
              if (Text.trim body).isEmpty then none
              else some (⟨['{', '{'], body, closing⟩, rest)
  | _ => none

theorem at?_eq_some {text rest : List Char} {m : Mustache} (h : at? text = some (m, rest)) :
    text = m.text ++ rest := by
  unfold at? at h
  split at h
  · rename_i inner
    split at h
    · simp at h
    · rename_i closing tail found
      have whole : inner = inner.takeWhile (· != '}') ++ (closing ++ tail) := by
        rw [← closing?_eq_some found, List.takeWhile_append_dropWhile]
      split at h
      · rename_i deeper hbody
        rw [hbody] at whole
        split at h <;>
          (simp only [Option.some.injEq, Prod.mk.injEq] at h
           obtain ⟨rfl, rfl⟩ := h
           simp [Mustache.text]
           exact whole)
      · split at h
        · simp at h
        · simp only [Option.some.injEq, Prod.mk.injEq] at h
          obtain ⟨rfl, rfl⟩ := h
          simp [Mustache.text]
          exact whole
  · simp at h

theorem text_ne_nil_of_at? {text rest : List Char} {m : Mustache}
    (h : at? text = some (m, rest)) : m.text ≠ [] := by
  unfold at? at h
  split at h
  · split at h
    · simp at h
    · split at h <;> split at h <;> simp at h <;> obtain ⟨rfl, _⟩ := h <;> simp [Mustache.text]
  · simp at h

/-- The reader of directives consumes exactly their text. -/
theorem reads_at? : Text.Reader.Reads at? Mustache.text :=
  ⟨at?_eq_some, text_ne_nil_of_at?⟩

end Mustache

/-- What a directive asks for. -/
structure Directive where
  kind : RenderKind
  key : String
  /-- The name of the fragment, for fragment directives. -/
  block : Option String
  deriving DecidableEq, Repr, Inhabited

/-- A directive in its place: the literal text since the one before, and the bytes at
which it begins and ends. -/
structure Occurrence where
  preamble : String
  mustache : Mustache
  start : Nat
  stop : Nat
  deriving DecidableEq, Repr

namespace Occurrence

def opening (o : Occurrence) : String := String.ofList o.mustache.opening
def content (o : Occurrence) : String := String.ofList o.mustache.content
def closing (o : Occurrence) : String := String.ofList o.mustache.closing
def whole (o : Occurrence) : String := String.ofList o.mustache.text
def isTriple (o : Occurrence) : Bool := o.mustache.isTriple

/-- The span of an occurrence in its source. -/
def span (o : Occurrence) (source : Source) : Span := source.span o.start o.stop

/-- The occurrence that follows the byte `from`. -/
def place (start : Nat) (before : List Char) (m : Mustache) : Occurrence :=
  { preamble := String.ofList before
    mustache := m
    start := start + Text.byteLength before
    stop := start + Text.byteLength before + Text.byteLength m.text }

/-- Refuses an occurrence that is closed by another number of braces than it is opened by. -/
def check (source : Source) (o : Occurrence) : Except SyntaxError Occurrence :=
  if o.mustache.isBalanced then .ok o
  else .error { span := o.span source, fault := .braceMismatch o.content o.whole }

/-- The first directive of a text. -/
def first? (source : Source) : Except SyntaxError (Option Occurrence) :=
  match Text.find? Mustache.at? source.text.toList with
  | none => .ok none
  | some found => (check source (place 0 found.before found.thing)).map some

/-- The occurrences in order, from the byte `start` on. -/
def placeAll (start : Nat) : List (List Char × Mustache) → List Occurrence
  | [] => []
  | (before, m) :: more =>
      let o := place start before m
      o :: placeAll o.stop more

/-- All directives of a text. -/
def all (source : Source) : Except SyntaxError (List Occurrence) :=
  (placeAll 0 (Text.tiles Mustache.at? source.text.toList).1).mapM (check source)

/-- The literal text behind the last directive. -/
def trailing (text : String) : String := String.ofList (Text.tiles Mustache.at? text.toList).2

/-- The directive that is all of the text. -/
def whole? (source : Source) : Except SyntaxError (Option Occurrence) :=
  (first? source).map fun found =>
    found.filter fun o => o.whole.utf8ByteSize == source.text.utf8ByteSize

/-- The directive of kind `kind` whose key is `body`. -/
def keyed (o : Occurrence) (kind : RenderKind) (body : List Char) : Except Fault Directive :=
  let key := Text.trim body
  if key.isEmpty then .error (.missingKey o.whole)
  else .ok { kind, key := String.ofList key, block := none }

/-- Classifies an occurrence by the first character of its content. -/
def classify (o : Occurrence) : Except Fault Directive :=
  match o.mustache.content with
  | '!' :: body => o.keyed .function body
  | '%' :: body => o.keyed .numeral body
  | '>' :: body =>
      match Text.words body with
      | [name, key] =>
          .ok { kind := .fragment, key := String.ofList key, block := some (String.ofList name) }
      | _ => .error (.malformedFragment o.whole)
  | body => o.keyed (if o.isTriple then .literal else .escaped) body

/-- The directive that an occurrence stands for. -/
def directive (source : Source) (o : Occurrence) : Except SyntaxError Directive :=
  o.classify.mapError fun fault => { span := o.span source, fault }

end Occurrence

end Stencil
