import Stencil.Source

/-! # Faults of a source text

What can be wrong with a template or with markup, where it is wrong, and the words
in which it is reported.
-/

namespace Stencil

/-- The causes for which a text is refused or reported. -/
inductive Fault where
  /-- A directive without a context key. -/
  | missingKey (directive : String)
  /-- A fragment directive that does not hold exactly a name and a key. -/
  | malformedFragment (directive : String)
  /-- The braces before and after a directive differ in number. -/
  | braceMismatch (content directive : String)
  /-- A closing tag that names another block than the one it closes. -/
  | blockMismatch (opened found : String)
  /-- A closing tag with no block open. -/
  | unopenedBlock (found : String)
  /-- A block tag with a sigil that opens and closes nothing. -/
  | unexpectedSigil (sigil : Char) (found : String)
  /-- A block that is open at the end of the text. -/
  | unclosedBlock (opening : String)
  /-- A comment or doctype that the text ends in. -/
  | unexpectedEnd
  /-- An open tag that the text ends in. -/
  | unexpectedEndInTag (name : String)
  /-- A quoted attribute value that the text ends in. -/
  | unexpectedEndInAttribute
  /-- A closing tag that the text ends in. -/
  | unexpectedEndInClosingTag (name : String)
  /-- An open tag inside which the next tag begins. -/
  | unclosedTag (name : String)
  /-- An element without its closing tag. -/
  | unclosedElement (name : String)
  /-- A closing tag for an element that is not open. -/
  | unexpectedClosingTag (name : String)
  /-- A closing tag for an element that has none. -/
  | voidClosingTag (name : String)
  /-- Anything else, in the words of whoever reports it. -/
  | other (words : String)
  deriving DecidableEq, Repr, Inhabited

namespace Fault

/-- The words of a fault. -/
def message : Fault → String
  | missingKey directive => "Missing key in directive " ++ directive
  | malformedFragment directive =>
      "Malformed fragment directive " ++ directive ++ ": expected \x7b\x7b> name args\x7d\x7d"
  | braceMismatch content directive =>
      "Open/close brace mismatch around " ++ content ++ " in " ++ directive
  | blockMismatch opened found =>
      "Block tag mismatch: expected closing \x7b\x7b/" ++ opened ++ "\x7d\x7d, found " ++ found
  | unopenedBlock found =>
      "Block tag mismatch: trying to close " ++ found ++ ", but there is no opening tag"
  | unexpectedSigil sigil found =>
      "Unexpected block format '" ++ sigil.toString ++ "' in " ++ found
  | unclosedBlock opening => "Block tag mismatch: missing closing tag for " ++ opening
  | unexpectedEnd => "Unexpected character \"EOF\""
  | unexpectedEndInTag name => "Unexpected character \"EOF\" in tag <" ++ name ++ ">"
  | unexpectedEndInAttribute => "Unexpected character \"EOF\" in attribute value"
  | unexpectedEndInClosingTag name =>
      "Unexpected character \"EOF\" in closing tag </" ++ name ++ ">"
  | unclosedTag name => "Unclosed tag <" ++ name ++ ">"
  | unclosedElement name => "Unclosed element \"" ++ name ++ "\""
  | unexpectedClosingTag name => "Unexpected closing tag \"" ++ name ++ "\""
  | voidClosingTag name => "Void elements do not have end tags \"" ++ name ++ "\""
  | other words => words

end Fault

/-- How serious a reported fault is. -/
inductive Severity where
  | warning
  | error
  deriving DecidableEq, Repr, Inhabited

/-- A fault at a place. -/
structure SyntaxError where
  span : Span
  fault : Fault
  severity : Severity := .error
  deriving DecidableEq, Repr, Inhabited

namespace SyntaxError

/-- The mark that an excerpt carries at the place of the fault. -/
def mark (e : SyntaxError) : String :=
  match e.severity with
  | .warning => "[WARNING ->]"
  | .error => "[ERROR ->]"

/-- The words of the fault with the source around it. -/
def contextual (e : SyntaxError) : String :=
  match e.span.source.excerpt? e.span.start 100 3 with
  | some (before, after) => e.fault.message ++ " (\"" ++ before ++ e.mark ++ after ++ "\")"
  | none => e.fault.message

/-- The complete report: words, source, location and details. -/
def message (e : SyntaxError) : String :=
  e.contextual ++ ": " ++ e.span.source.describe e.span.start ++
    match e.span.details with
    | some details => ", " ++ details
    | none => ""

end SyntaxError

end Stencil
