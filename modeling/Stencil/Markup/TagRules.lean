import Stencil.Text.Cut

/-! # Rules of tags

What reading and writing of markup has to know of an element by its name: whether it is
void, how its content is read, and which tags end it without a closing tag.
-/

namespace Stencil.Markup

/-- How the content of an element is read. -/
inductive ContentModel where
  /-- As it stands, up to the closing tag. -/
  | raw
  /-- As text with character references, up to the closing tag. -/
  | escapable
  /-- As markup. -/
  | parsable
  deriving DecidableEq, Repr, Inhabited

structure TagRules where
  /-- The tags that end an open element of this name. -/
  closedBy : List String := []
  content : ContentModel := .parsable
  /-- Void elements have neither content nor a closing tag. -/
  isVoid : Bool := false
  /-- A line feed directly behind the open tag is dropped. -/
  skipsNewline : Bool := false
  deriving DecidableEq, Repr, Inhabited

namespace TagRules

def voidNames : List String :=
  ["area", "base", "br", "col", "embed", "hr", "img", "input", "link", "meta", "param", "source",
    "track", "wbr"]

/-- The rules of the names that have some. Paragraphs are not ended by the tags behind
them, since block containers may stand anywhere. -/
def table : List (String × TagRules) :=
  voidNames.map (fun name => (name, { isVoid := true })) ++
    [("li", { closedBy := ["li"] }),
      ("dt", { closedBy := ["dt", "dd"] }),
      ("dd", { closedBy := ["dt", "dd"] }),
      ("tr", { closedBy := ["tr"] }),
      ("td", { closedBy := ["td", "th"] }),
      ("th", { closedBy := ["td", "th"] }),
      ("option", { closedBy := ["option", "optgroup"] }),
      ("script", { content := .raw }),
      ("style", { content := .raw }),
      ("textarea", { content := .escapable, skipsNewline := true }),
      ("title", { content := .escapable }),
      ("pre", { skipsNewline := true })]

/-- The rules of a tag; capital and small ASCII letters are the same. -/
def of (name : String) : TagRules :=
  ((table.find? fun entry => entry.1 == Text.lower name).map (·.2)).getD {}

/-- Whether an open element with these rules ends where the tag `name` begins. -/
def isClosedBy (rules : TagRules) (name : String) : Bool := rules.closedBy.contains name

end TagRules

end Stencil.Markup
