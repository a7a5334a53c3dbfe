import Stencil.Files.Path

/-! # Access to files

What a run needs of a file system: to look at it, and to write into it. Both are given by
the host; a tree of files in memory is one such host.
-/

namespace Stencil

inductive FileKind where
  | file
  | directory
  /-- Anything else, such as a device. -/
  | other
  deriving DecidableEq, Repr, Inhabited

/-- The causes for which files are not accessible. -/
inductive FileError where
  | notFound
  | alreadyExists
  | notDirectory
  | isDirectory
  /-- The bytes of a file are no text. -/
  | notText
  /-- Any other cause, in the words of the host. -/
  | other (words : String)
  deriving DecidableEq, Repr, Inhabited

def FileError.message : FileError → String
  | notFound => "No such file or directory (os error 2)"
  | alreadyExists => "File exists (os error 17)"
  | notDirectory => "Not a directory (os error 20)"
  | isDirectory => "Is a directory (os error 21)"
  | notText => "stream did not contain valid UTF-8"
  | other words => words

/-- A way of looking at files. -/
structure Files (m : Type → Type) where
  /-- What a path leads to. -/
  kind? : Path → m (Option FileKind)
  /-- The names in a directory; none if there is no such directory. -/
  entries : Path → m (List String)
  read : Path → m (Except FileError ByteArray)
  /-- No chain of directories is longer. -/
  depth : Nat

namespace Files

variable {m : Type → Type} [Monad m]

def isFile (files : Files m) (p : Path) : m Bool := return (← files.kind? p) == some .file

def isDirectory (files : Files m) (p : Path) : m Bool :=
  return (← files.kind? p) == some .directory

/-- The text of a file. -/
def readText (files : Files m) (p : Path) : m (Except FileError String) := do
  match ← files.read p with
  | .error e => return .error e
  | .ok bytes =>
      match String.fromUTF8? bytes with
      | some text => return .ok text
      | none => return .error .notText

end Files

/-- A way of writing files. -/
structure Storage (m : Type → Type) where
  isDirectory : Path → m Bool
  /-- Makes one directory, in one that is there. -/
  makeDirectory : Path → m (Except FileError Unit)
  /-- Writes a text into a file, in place of what is there. -/
  write : Path → String → m (Except FileError Unit)

namespace Storage

variable {m : Type → Type} [Monad m]

/-- Makes a directory unless it is there. -/
def ensureDirectory (s : Storage m) (p : Path) : m (Except FileError Unit) := do
  match ← s.makeDirectory p with
  | .ok () => return .ok ()
  | .error e => return if ← s.isDirectory p then .ok () else .error e

/-- Makes a directory after those of the paths above it that are missing. -/
def createBelow (s : Storage m) : List Path → Path → m (Except FileError Unit)
  | [], _ => return .ok ()
  | above :: parents, p => do
      match ← s.ensureDirectory p with
      | .error .notFound =>
          match ← s.createBelow parents above with
          | .ok () => s.ensureDirectory p
          | .error e => return .error e
      | answer => return answer

/-- Makes all directories along a path that are missing. -/
def createDirectories (s : Storage m) (p : Path) : m (Except FileError Unit) :=
  s.createBelow p.parents p

end Storage

end Stencil
