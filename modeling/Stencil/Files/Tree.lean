import Stencil.Files.Access

/-! # Trees of files

Files in memory, seen from the directory at the top, which is the working directory.
Nothing is known of what lies outside of it.
-/

namespace Stencil

inductive FileTree where
  | file (content : ByteArray)
  | directory (entries : List (String × FileTree))
  deriving Inhabited

namespace FileTree

def isDirectory : FileTree → Bool
  | directory _ => true
  | file _ => false

def kind : FileTree → FileKind
  | directory _ => .directory
  | file _ => .file

/-- What is at the end of a chain of names. -/
def find? : FileTree → List String → Option FileTree
  | t, [] => some t
  | file _, _ :: _ => none
  | directory entries, name :: names => (entries.lookup name).bind fun t => find? t names

mutual

/-- The length of the longest chain of names. -/
def height : FileTree → Nat
  | file _ => 0
  | directory entries => heightBelow entries + 1

def heightBelow : List (String × FileTree) → Nat
  | [] => 0
  | (_, t) :: entries => max (height t) (heightBelow entries)

end

/-- Replaces the entry of a name, or adds one at the end. -/
def putEntry (name : String) (f : Option FileTree → FileTree) :
    List (String × FileTree) → List (String × FileTree)
  | [] => [(name, f none)]
  | (other, t) :: entries =>
      if other = name then (other, f (some t)) :: entries
      else (other, t) :: putEntry name f entries

/-- Puts something at the end of a chain of names, with the directories that are missing.
What is in a file cannot be reached. -/
def put (value : FileTree) : List String → FileTree → FileTree
  | [], _ => value
  | _ :: _, file content => file content
  | name :: names, directory entries =>
      directory (putEntry name (fun old => put value names (old.getD (directory []))) entries)

/-- Follows segments from a directory, and gives the names that lead to the same place. -/
def follow (top : FileTree) (place : List String) : List String → Except FileError (List String)
  | [] => .ok place
  | segment :: segments =>
      match top.find? place with
      | none => .error .notFound
      | some (file _) => .error .notDirectory
      | some (directory entries) =>
          if segment = "" ∨ segment = "." then follow top place segments
          else if segment = ".." then
            if place.isEmpty then .error .notFound else follow top place.dropLast segments
          else if (entries.lookup segment).isSome then follow top (place ++ [segment]) segments
          else .error .notFound

/-- The names that lead to where a path leads. -/
def locate (top : FileTree) (p : Path) : Except FileError (List String) :=
  if p.text = "" ∨ p.isAbsolute then .error .notFound else follow top [] p.segments

/-- What a path leads to. -/
def get (top : FileTree) (p : Path) : Except FileError FileTree := do
  match top.find? (← top.locate p) with
  | some t => return t
  | none => throw .notFound

/-- The bytes of a file. -/
def read (top : FileTree) (p : Path) : Except FileError ByteArray := do
  match ← top.get p with
  | file content => return content
  | directory _ => throw .isDirectory

/-- The names in a directory. -/
def entryNames (top : FileTree) (p : Path) : List String :=
  match top.get p with
  | .ok (directory entries) => entries.map (·.1)
  | _ => []

/-- A look at a tree. -/
def files (top : FileTree) : Files Id where
  kind? p := (top.get p).toOption.map kind
  entries p := top.entryNames p
  read p := top.read p
  depth := top.height

/-! ## Writing -/

/-- A place for a new entry: the names of a directory, the last segment of the path, and
whether a slash follows it. -/
structure Slot where
  parent : List String
  entries : List (String × FileTree)
  last : String
  slashed : Bool

/-- The place for what a path is to lead to. -/
def slot (top : FileTree) (p : Path) : Except FileError Slot := do
  if p.text = "" ∨ p.isAbsolute then
    throw .notFound
  let segments := (p.segments.reverse.dropWhile (· == "")).reverse
  let parent ← follow top [] segments.dropLast
  match top.find? parent with
  | some (directory entries) =>
      return {
        parent, entries
        last := segments.getLast?.getD ""
        slashed := segments.length < p.segments.length }
  | some (file _) => throw .notDirectory
  | none => throw .notFound

/-- Whether a segment names no entry of its own. -/
def isDots (segment : String) : Bool := segment == "." || segment == ".."

/-- The tree with a new directory. -/
def withDirectory (top : FileTree) (p : Path) : Except FileError FileTree := do
  let s ← top.slot p
  if isDots s.last || (s.entries.lookup s.last).isSome then
    throw .alreadyExists
  return put (directory []) (s.parent ++ [s.last]) top

/-- The tree with a file of this content. -/
def withFile (top : FileTree) (p : Path) (content : ByteArray) : Except FileError FileTree := do
  let s ← top.slot p
  if s.slashed || isDots s.last then
    throw .isDirectory
  match s.entries.lookup s.last with
  | some (directory _) => throw .isDirectory
  | _ => return put (file content) (s.parent ++ [s.last]) top

/-- Replaces the tree by what a change makes of it, unless that is refused. -/
def update (change : FileTree → Except FileError FileTree) :
    StateM FileTree (Except FileError Unit) := do
  match change (← MonadState.get) with
  | .ok t =>
      set t
      return .ok ()
  | .error e => return .error e

/-- Writing into a tree. -/
def storage : Storage (StateM FileTree) where
  isDirectory p := return (((← MonadState.get).get p).toOption.map isDirectory).getD false
  makeDirectory p := update (·.withDirectory p)
  write p text := update (·.withFile p text.toUTF8)

end FileTree

end Stencil
