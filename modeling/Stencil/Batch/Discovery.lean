import Stencil.Batch.Diagnostic

/-! # Discovery

The files that a list of patterns stands for, in the order of the patterns, each once. A
pattern that is the path of a file stands for that file alone.
-/

namespace Stencil

structure Discovery where
  files : List Path := []
  diagnostics : List Diagnostic := []
  deriving Repr, Inhabited

namespace Discovery

/-- Adds a file unless it is there. -/
def add (d : Discovery) (file : Path) : Discovery :=
  if d.files.any file.same then d else { d with files := d.files ++ [file] }

def report (d : Discovery) (problem : Diagnostic) : Discovery :=
  { d with diagnostics := d.diagnostics ++ [problem] }

variable {m : Type → Type} [Monad m]

/-- Adds the files that a pattern stands for. -/
def addPattern (files : Files m) (d : Discovery) (pattern : String) : m Discovery := do
  if ← files.isFile ⟨pattern⟩ then
    return d.add ⟨pattern⟩
  match Glob.parse pattern with
  | .error fault => return d.report (.badPattern pattern fault)
  | .ok g =>
      let found ← (← g.expand files).filterM files.isFile
      let more := found.foldl add d
      if more.files.length = d.files.length then
        return more.report (.noMatch pattern)
      return more

/-- The files that patterns stand for. -/
def ofPatterns (files : Files m) (patterns : List String) : m Discovery :=
  patterns.foldlM (addPattern files) {}

end Discovery

end Stencil
