import Stencil.Text.Cut

/-! # Paths

A path is kept as it was written. Two spellings name the same path when they take the same
steps; empty segments, and dots that are not in front, are no steps.
-/

namespace Stencil

structure Path where
  text : String
  deriving DecidableEq, Repr, Inhabited

namespace Path

/-- A step along a path. -/
inductive Step where
  | root
  /-- The dot in front of a path. -/
  | here
  | up
  | entry (name : String)
  deriving DecidableEq, Repr, Inhabited

/-- The texts between the slashes of a path. -/
def segments (p : Path) : List String := (Text.splitOn ['/'] p.text.toList).map String.ofList

def isAbsolute (p : Path) : Bool := p.text.toList.head? == some '/'

/-- The step for a segment that is not in front. -/
def innerStep? (segment : String) : Option Step :=
  if segment = "" ∨ segment = "." then none
  else if segment = ".." then some .up
  else some (.entry segment)

/-- The steps of a path in order. -/
def steps (p : Path) : List Step :=
  match p.segments with
  | first :: rest =>
      (if first = "" then if p.isAbsolute then [Step.root] else []
        else if first = "." then [Step.here]
        else (innerStep? first).toList) ++ rest.filterMap innerStep?
  | [] => []

/-- Whether two spellings name the same path. -/
def same (p q : Path) : Bool := p.steps == q.steps

/-- The name of what a path leads to, if its last step gives one. -/
def fileName? (p : Path) : Option String :=
  match p.steps.getLast? with
  | some (.entry name) => some name
  | _ => none

/-- A name up to its last dot. A dot in front of the name does not count. -/
def stemOf (name : String) : String :=
  let behind := (name.toList.reverse.takeWhile (· != '.')).length
  let stem := name.toList.take (name.length - behind - 1)
  if behind = name.length ∨ stem.isEmpty then name else String.ofList stem

/-- The name of a template in this file: the stem of its name. -/
def templateName (p : Path) : String := (p.fileName?.map stemOf).getD p.text

/-- A path as seen from another; an absolute path is seen as itself. -/
def join (p q : Path) : Path :=
  if q.isAbsolute || p.text.isEmpty then q
  else if p.text.toList.getLast? == some '/' then ⟨p.text ++ q.text⟩
  else ⟨p.text ++ "/" ++ q.text⟩

/-- The entry of a directory. -/
def child (p : Path) (name : String) : Path := p.join ⟨name⟩

def Step.text : Step → String
  | root => ""
  | here => "."
  | up => ".."
  | entry name => name

/-- The plain spelling of some steps. -/
def ofSteps : List Step → Path
  | [.root] => ⟨"/"⟩
  | steps => ⟨String.intercalate "/" (steps.map Step.text)⟩

/-- The paths that a path extends, the longest first. -/
def parents (p : Path) : List Path :=
  (List.range p.steps.length).reverse.map fun n => ofSteps (p.steps.take n)

end Path

end Stencil
