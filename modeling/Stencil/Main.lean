import Stencil.Cli.Command

/-! # The program

The command line on the files of the host.
-/

namespace Stencil.Host

/-- A path as the host takes it. -/
def place (p : Path) : IO.FS.DirEntry := { root := p.text, fileName := "" }

/-- The cause of a failure of the host. -/
def cause : IO.Error → FileError
  | .noFileOrDirectory _ _ _ => .notFound
  | .noSuchThing _ _ _ => .notFound
  | .alreadyExists _ _ _ => .alreadyExists
  | .inappropriateType _ code _ => if code = 21 then .isDirectory else .notDirectory
  | e => .other (toString e)

/-- The outcome of an action, or the cause of its failure. -/
def attempt {α : Type} (action : IO α) : IO (Except FileError α) := do
  match ← action.toBaseIO with
  | .ok a => return .ok a
  | .error e => return .error (cause e)

def kind? (p : Path) : IO (Option FileKind) := do
  match ← attempt (place p).root.metadata with
  | .ok data =>
      match data.type with
      | .dir => return some .directory
      | .file => return some .file
      | _ => return some .other
  | .error _ => return none

/-- A look at the files of the host. The length of paths is limited, and with it the
length of chains of directories. -/
def files : Files IO where
  kind? := kind?
  entries p := do
    match ← attempt (place p).root.readDir with
    | .ok entries => return entries.toList.map (·.fileName)
    | .error _ => return []
  read p := attempt (IO.FS.readBinFile p.text)
  depth := 4096

/-- Writing files of the host. -/
def storage : Storage IO where
  isDirectory p := return (← kind? p) == some .directory
  makeDirectory p := attempt (IO.FS.createDir p.text)
  write p text := attempt (IO.FS.writeFile p.text text)

end Stencil.Host

def main (words : List String) : IO UInt32 := do
  let output ← Stencil.Cli.run Stencil.Host.files Stencil.Host.storage words
  (← IO.getStderr).putStr output.stderr
  (← IO.getStdout).putStr output.stdout
  return output.exit.toUInt32
