/-! # Indented lines

Text that is built up line by line. A line keeps the indentation that was set when it
began, or when it was last changed while the line was still empty.
-/

namespace Stencil

/-- A line: its indentation in levels, and its parts in order. -/
structure Line where
  indent : Nat
  parts : List String
  deriving DecidableEq, Repr, Inhabited

namespace Line

def isEmpty (l : Line) : Bool := l.parts.isEmpty

/-- The text of a line; an empty one has no indentation. -/
def text (l : Line) : String :=
  if l.isEmpty then ""
  else String.ofList (List.replicate (2 * l.indent) ' ') ++ String.join l.parts

end Line

/-- The lines so far: the current one, and those before it, the latest first. -/
structure Lines where
  current : Line
  earlier : List Line
  indent : Nat
  deriving DecidableEq, Repr, Inhabited

namespace Lines

/-- One empty line at an indentation. -/
def start (indent : Nat) : Lines := { current := ⟨indent, []⟩, earlier := [], indent }

/-- Adds a part to the current line. -/
def print (part : String) (ls : Lines) : Lines :=
  if part.isEmpty then ls
  else { ls with current := { ls.current with parts := ls.current.parts ++ [part] } }

/-- Ends the current line. -/
def endLine (ls : Lines) : Lines :=
  { ls with current := ⟨ls.indent, []⟩, earlier := ls.current :: ls.earlier }

/-- Adds a part to the current line and ends it. -/
def println (part : String) (ls : Lines) : Lines := (ls.print part).endLine

/-- Sets the indentation of the lines to come, and of the current one if it is empty. -/
def setIndent (indent : Nat) (ls : Lines) : Lines :=
  if ls.current.isEmpty then { ls with indent, current := { ls.current with indent } }
  else { ls with indent }

def increase (ls : Lines) : Lines := ls.setIndent (ls.indent + 1)

def decrease (ls : Lines) : Lines := ls.setIndent (ls.indent - 1)

/-- Whether the current line has no parts. -/
def lineIsEmpty (ls : Lines) : Bool := ls.current.isEmpty

/-- The bytes in the current line, its indentation included. -/
def lineLength (ls : Lines) : Nat :=
  2 * ls.current.indent + (String.join ls.current.parts).utf8ByteSize

/-- The text of all lines. The last one is left out if it is empty. -/
def source (ls : Lines) : String :=
  let last := if ls.current.isEmpty then [] else [ls.current]
  String.intercalate "\n" ((ls.earlier.reverse ++ last).map Line.text)

end Lines

end Stencil
