import Stencil.Fault
import Stencil.Marker
import Stencil.Text.Blank
import Stencil.Text.Tiles
import Stencil.Text.WordChar

/-! # Blocks

Block tags open and close regions of a text. A text whose tags are well nested is a
list of fragments: pieces of text and blocks with a name, optional arguments and
fragments of their own. Fusing writes each block as a marked container element.
-/

namespace Stencil

/-- A tag that opens or closes a block. -/
structure BlockTag where
  sigil : Char
  name : List Char
  args : Option (List Char)
  /-- The tag as it stands in the text. -/
  text : List Char
  deriving DecidableEq, Repr

namespace BlockTag

/-- Characters of names and arguments. -/
def isNameChar (c : Char) : Bool := Text.isWordChar c || c == '.'

def isSigil (c : Char) : Bool := c == '#' || c == '$' || c == '/' || c == '^'

/-- The run of name characters at the beginning, and the rest. -/
def nameRun (cs : List Char) : List Char × List Char :=
  (cs.takeWhile isNameChar, cs.dropWhile isNameChar)

def skipWhite (cs : List Char) : List Char := cs.dropWhile Text.isWhite

/-- The arguments behind a name: a second run of name characters after white space. -/
def args? (cs : List Char) : Option (List Char) × List Char :=
  match cs with
  | c :: _ =>
      if Text.isWhite c then
        match nameRun (skipWhite cs) with
        | ([], rest) => (none, rest)
        | (run, rest) => (some run, skipWhite rest)
      else (none, cs)
  | [] => (none, [])

/-- The part of `text` before its suffix `rest`. -/
def consumed (text rest : List Char) : List Char := text.take (text.length - rest.length)

/-- The block tag at the beginning of a text. -/
def at? (text : List Char) : Option (BlockTag × List Char) :=
  match text with
  | '{' :: '{' :: sigil :: inner =>
      if isSigil sigil then
        match nameRun (skipWhite inner) with
        | ([], _) => none
        | (name, behind) =>
            match args? behind with
            | (args, '}' :: '}' :: rest) =>
                some ({ sigil, name, args, text := consumed text rest }, rest)
            | _ => none
      else none
  | _ => none

end BlockTag

/-- A piece of text or a block. -/
inductive Fragment where
  | text (content : String)
  | block (name : String) (args : Option String) (body : List Fragment)
  deriving Repr, Inhabited

namespace Fragment

/-- A block's name and arguments in one, as its marker holds them. -/
def identity (name : String) : Option String → String
  | some args => name ++ " " ++ args
  | none => name

mutual

/-- The markup of one fragment: a block becomes a container that bears its identity. -/
def fuse : Fragment → String
  | text content => content
  | block name args body =>
      "<div " ++ Marker.block ++ "=\"" ++ identity name args ++ "\">" ++ fuseAll body ++ "</div>"

/-- The markup of fragments in order. -/
def fuseAll : List Fragment → String
  | [] => ""
  | f :: fs => fuse f ++ fuseAll fs

end

end Fragment

/-- A block that is still open, with the fragments read so far, the last one first. -/
structure OpenBlock where
  name : String
  args : Option String
  start : Nat
  stop : Nat
  body : List Fragment
  deriving Repr

namespace OpenBlock

/-- The fragment that a closed block becomes. -/
def close (b : OpenBlock) : Fragment := .block b.name b.args b.body.reverse

end OpenBlock

/-- The reading of block tags so far: the open blocks, innermost first, the fragments
outside all of them, last first, and the byte that is next. -/
structure Nesting where
  opened : List OpenBlock
  outer : List Fragment
  offset : Nat
  deriving Repr

namespace Nesting

def start : Nesting := { opened := [], outer := [], offset := 0 }

/-- Adds a fragment to the innermost open block. -/
def add (f : Fragment) (n : Nesting) : Nesting :=
  match n.opened with
  | [] => { n with outer := f :: n.outer }
  | top :: rest => { n with opened := { top with body := f :: top.body } :: rest }

/-- Adds a piece of text unless it is empty. -/
def addText (cs : List Char) (n : Nesting) : Nesting :=
  if cs.isEmpty then n else n.add (.text (String.ofList cs))

/-- Reads one tag with the text before it. -/
def step (source : Source) (alternate : Bool) (n : Nesting) (piece : List Char × BlockTag) :
    Except SyntaxError Nesting :=
  let (before, tag) := piece
  let first := n.offset + Text.byteLength before
  let last := first + Text.byteLength tag.text
  let found := String.ofList tag.text
  let refuse (fault : Fault) : Except SyntaxError Nesting :=
    .error { span := source.span first last, fault }
  let n := { n.addText before with offset := last }
  if tag.sigil == '#' || (tag.sigil == '^' && alternate) then
    let entered : OpenBlock :=
      { name := String.ofList tag.name, args := tag.args.map String.ofList,
        start := first, stop := last, body := [] }
    .ok { n with opened := entered :: n.opened }
  else if tag.sigil == '/' then
    match n.opened with
    | [] => refuse (.unopenedBlock found)
    | top :: rest =>
        if top.name == String.ofList tag.name then
          .ok (({ n with opened := rest } : Nesting).add top.close)
        else
          let span := (source.span first last).withDetails
            ("block opened at " ++ source.describe (source.locate top.start))
          .error { span, fault := .blockMismatch top.name found }
  else refuse (.unexpectedSigil tag.sigil found)

/-- The fragments at the end of the text, which must leave no block open. -/
def finish (source : Source) (trailing : List Char) (n : Nesting) :
    Except SyntaxError (List Fragment) :=
  match n.opened with
  | top :: _ =>
      let span := source.span top.start top.stop
      .error { span, fault := .unclosedBlock span.text }
  | [] => .ok (n.addText trailing).outer.reverse

end Nesting

namespace Fragment

/-- The fragments of a text. With `alternate`, a caret opens a block as a hash does. -/
def split (source : Source) (alternate : Bool) : Except SyntaxError (List Fragment) :=
  let (pieces, trailing) := Text.tiles BlockTag.at? source.text.toList
  (pieces.foldlM (Nesting.step source alternate) Nesting.start).bind
    (Nesting.finish source trailing)

/-- The text with every block written as a marked container. -/
def blockify (source : Source) (alternate : Bool) : Except SyntaxError String :=
  (split source alternate).map fuseAll

/-- The value of the block marker at the beginning of a text. -/
def marker? (text : List Char) : Option (List Char × List Char) :=
  match Text.after? (Marker.block.toList ++ ['=', '"']) text with
  | none => none
  | some inner =>
      match inner.dropWhile (· != '"') with
      | _ :: rest => some (inner.takeWhile (· != '"'), rest)
      | [] => none

/-- The block identities in fused markup, in order. -/
def markers (markup : String) : List String :=
  (Text.tiles marker? markup.toList).1.map fun (_, identity) => String.ofList identity

end Fragment

end Stencil
