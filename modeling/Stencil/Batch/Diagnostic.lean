import Stencil.Error
import Stencil.Files.Glob

/-! # Diagnostics

What a batch run reports about an input, or about the run as a whole.
-/

namespace Stencil

inductive Diagnostic where
  /-- No file is added by a pattern. -/
  | noMatch (pattern : String)
  | badPattern (pattern : String) (fault : GlobFault)
  | unreadable (file : Path) (e : FileError)
  | malformed (file : Path) (e : TemplateError)
  /-- The name of a file's template is taken. -/
  | duplicate (file : Path) (name : String)
  | nothingToCompile
  | notCreated (directory : Path) (e : FileError)
  | notWritten (file : Path) (e : FileError)
  deriving DecidableEq, Repr, Inhabited

namespace Diagnostic

def message : Diagnostic → String
  | noMatch pattern => "No input matches '" ++ pattern ++ "'"
  | badPattern pattern fault => "Invalid glob pattern '" ++ pattern ++ "': " ++ fault.message
  | unreadable file e => "Failed to read " ++ file.text ++ ": " ++ e.message
  | malformed file e => "Failed to compile " ++ file.text ++ ": " ++ e.message
  | duplicate _ name => "Duplicate template name '" ++ name ++ "'"
  | nothingToCompile => "No templates to compile"
  | notCreated directory e => "Failed to create " ++ directory.text ++ ": " ++ e.message
  | notWritten file e => "Failed to write " ++ file.text ++ ": " ++ e.message

/-- The input that a diagnostic is about. -/
def file? : Diagnostic → Option Path
  | unreadable file _ => some file
  | malformed file _ => some file
  | duplicate file _ => some file
  | _ => none

def line (d : Diagnostic) : String :=
  match d.file? with
  | some file => "error: " ++ d.message ++ " (" ++ file.text ++ ")"
  | none => "error: " ++ d.message

/-- The lines of some diagnostics. -/
def lines (ds : List Diagnostic) : String := String.join (ds.map fun d => d.line ++ "\n")

end Diagnostic

end Stencil
