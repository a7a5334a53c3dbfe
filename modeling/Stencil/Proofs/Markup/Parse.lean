import Stencil.Markup.Tree

/-! # Markup as trees

The nodes of markup as trees, read without a document: an open element keeps the trees of its
children until it is closed, and then becomes a tree itself.
-/

namespace Stencil.Markup

/-- An element whose closing tag has not been read, with its children so far, last first. -/
structure OpenElement where
  name : String
  attributes : List (String × Value)
  start : Nat
  stop : Nat
  children : List (NodeTree Unit)
  deriving Inhabited

namespace OpenElement

/-- The element when it is closed. -/
def close (e : OpenElement) : NodeTree Unit :=
  .node () (.element e.name e.attributes) e.children.reverse

/-- Whether the element may be left without a closing tag. -/
def isOptional (e : OpenElement) : Bool := !(TagRules.of e.name).closedBy.isEmpty

end OpenElement

/-- The reading of tokens so far: open elements, innermost first, the trees outside all
of them and the flaws, both last first. -/
structure Growth where
  opened : List OpenElement
  outer : List (NodeTree Unit)
  flaws : List Flaw
  deriving Inhabited

namespace Growth

def start : Growth := { opened := [], outer := [], flaws := [] }

/-- Adds a tree to the innermost open element. -/
def add (t : NodeTree Unit) (g : Growth) : Growth :=
  match g.opened with
  | [] => { g with outer := t :: g.outer }
  | top :: rest => { g with opened := { top with children := t :: top.children } :: rest }

/-- Closes the innermost open element. -/
def closeTop (g : Growth) : Growth :=
  match g.opened with
  | [] => g
  | top :: rest => { g with opened := rest }.add top.close

/-- Closes the `n` innermost open elements. -/
def close : Nat → Growth → Growth
  | 0, g => g
  | n + 1, g => close n g.closeTop

/-- Reports the innermost open element unless its closing tag is optional. -/
def reportTop (g : Growth) : Growth :=
  match g.opened with
  | [] => g
  | top :: _ =>
      if top.isOptional then g
      else { g with flaws := ⟨.unclosedElement top.name, top.start, top.stop⟩ :: g.flaws }

/-- Closes and reports the `n` innermost open elements. -/
def abandon : Nat → Growth → Growth
  | 0, g => g
  | n + 1, g => abandon n g.reportTop.closeTop

/-- Reads one token. -/
def step (g : Growth) (token : Token) : Growth :=
  match token.lexeme with
  | .text value => g.add (.node () (.text value) [])
  | .comment value => g.add (.node () (.comment value) [])
  | .doctype value => g.add (.node () (.doctype value) [])
  | .openTag name attributes selfClosing =>
      let ended := g.opened.takeWhile fun e => (TagRules.of e.name).isClosedBy name
      let g := g.close ended.length
      let attributes := firstAttributes attributes
      if (TagRules.of name).isVoid || selfClosing then
        g.add (.node () (.element name attributes) [])
      else
        { g with opened := ⟨name, attributes, token.start, token.stop, []⟩ :: g.opened }
  | .closeTag name =>
      if (TagRules.of name).isVoid then
        { g with flaws := ⟨.voidClosingTag name, token.start, token.stop⟩ :: g.flaws }
      else
        match g.opened.findIdx? (·.name == name) with
        | some inside => (g.abandon inside).closeTop
        | none =>
            { g with flaws := ⟨.unexpectedClosingTag name, token.start, token.stop⟩ :: g.flaws }

end Growth

/-- The trees of markup, and everything in it that had to be mended. -/
def parse (markup : String) : List (NodeTree Unit) × List Flaw :=
  let (tokens, flaws) := tokenize markup
  let grown := tokens.foldl Growth.step Growth.start
  let grown := grown.abandon grown.opened.length
  (grown.outer.reverse, flaws ++ grown.flaws.reverse)

end Stencil.Markup
