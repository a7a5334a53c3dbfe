import Stencil.Markup.Token
import Stencil.Value

/-! # Trees of markup

The nodes of a document as a tree, with a label on every node. Two trees that differ in
their labels only have the same shape. A tree is written as markup.
-/

namespace Stencil.Markup

/-- What a node is, its children apart. -/
inductive NodeData where
  | element (name : String) (attributes : List (String × Value))
  | text (value : String)
  | comment (value : String)
  /-- A list of nodes outside any element. -/
  | fragment
  | doctype (value : String)
  deriving Inhabited

/-- A node with everything below it. -/
inductive NodeTree (ι : Type) where
  | node (label : ι) (data : NodeData) (children : List (NodeTree ι))
  deriving Inhabited

namespace NodeData

/-- Whether nodes of this kind may have children. -/
def isContainer : NodeData → Bool
  | element _ _ => true
  | fragment => true
  | _ => false

def isElement : NodeData → Bool
  | element _ _ => true
  | _ => false

/-- Whether the text inside is written as it stands. -/
def isRaw : NodeData → Bool
  | element name _ => (TagRules.of name).content == .raw
  | _ => false

/-- Whether the node is an element that can have no content. -/
def isVoid : NodeData → Bool
  | element name _ => (TagRules.of name).isVoid
  | _ => false

/-- The attributes of an element. -/
def attributes : NodeData → List (String × Value)
  | element _ attributes => attributes
  | _ => []

end NodeData

/-- The attributes of a tag; of a repeated name the first counts. -/
def firstAttributes (attributes : List (String × String)) : List (String × Value) :=
  attributes.foldl (fun kept (name, value) =>
    if kept.any (·.1 == name) then kept else kept ++ [(name, .string value)]) []

/-- An attribute in an open tag. -/
def printAttribute (entry : String × Value) : String :=
  " " ++ entry.1 ++ "=\"" ++ escapeAttribute entry.2.text ++ "\""

/-- The open tag of an element. -/
def printOpenTag (name : String) (attributes : List (String × Value)) : String :=
  "<" ++ name ++ String.join (attributes.map printAttribute) ++ ">"

namespace NodeTree

variable {ι : Type}

def label : NodeTree ι → ι
  | node label _ _ => label

def data : NodeTree ι → NodeData
  | node _ data _ => data

def children : NodeTree ι → List (NodeTree ι)
  | node _ _ children => children

mutual

/-- The tree with other labels. -/
def map {κ : Type} (f : ι → κ) : NodeTree ι → NodeTree κ
  | node label data children => node (f label) data (mapAll f children)

def mapAll {κ : Type} (f : ι → κ) : List (NodeTree ι) → List (NodeTree κ)
  | [] => []
  | t :: ts => map f t :: mapAll f ts

end

/-- The tree without its labels. -/
def shape (t : NodeTree ι) : NodeTree Unit := t.map fun _ => ()

mutual

/-- The labels in document order, each node before its children. -/
def labels : NodeTree ι → List ι
  | node label _ children => label :: labelsAll children

def labelsAll : List (NodeTree ι) → List ι
  | [] => []
  | t :: ts => labels t ++ labelsAll ts

end

mutual

/-- The markup of a tree. Text is written as it stands where `raw` says so. -/
def print (raw : Bool) : NodeTree ι → String
  | node _ data children =>
      match data with
      | .element name attributes =>
          if (TagRules.of name).isVoid then printOpenTag name attributes
          else printOpenTag name attributes ++ printAll data.isRaw children ++ "</" ++ name ++ ">"
      | .text value => if raw then value else escapeText value
      | .comment value => "<!--" ++ value ++ "-->"
      | .doctype value => "<!" ++ value ++ ">"
      | .fragment => printAll raw children

def printAll (raw : Bool) : List (NodeTree ι) → String
  | [] => ""
  | t :: ts => print raw t ++ printAll raw ts

end

/-- The markup of the children of a node. -/
def inner (t : NodeTree ι) : String := printAll t.data.isRaw t.children

mutual

/-- The text below a node, without comments and doctypes. -/
def textContent : NodeTree ι → String
  | node _ data children =>
      match data with
      | .text value => value
      | .element _ _ => textContents children
      | .fragment => textContents children
      | _ => ""

def textContents : List (NodeTree ι) → String
  | [] => ""
  | t :: ts => textContent t ++ textContents ts

end

end NodeTree

end Stencil.Markup
