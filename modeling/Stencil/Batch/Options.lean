import Stencil.Config
import Stencil.Files.Access

/-! # Options of a batch run

Which templates are compiled, how, and where the artifact goes.
-/

namespace Stencil

/-- The form of an artifact. -/
inductive Format where
  | json
  /-- A script module. -/
  | script
  deriving DecidableEq, Repr, Inhabited

namespace Format

def parse? (name : String) : Option Format :=
  if name = "json" then some json
  else if name = "js" then some script
  else none

/-- The name of the artifact's file if none is given. -/
def fileName : Format → String
  | json => "templates.json"
  | script => "templates.js"

end Format

structure Options where
  /-- Paths and patterns. -/
  inputs : List String := []
  outDir : Path := ⟨"."⟩
  outFile : Option String := none
  format : Format := .json
  /-- Go on after a failure, and write what has been compiled. -/
  keepGoing : Bool := false
  verbose : Bool := false
  config : Config := {}
  deriving Repr

namespace Options

/-- The file of the artifact. -/
def output (o : Options) : Path := o.outDir.join ⟨o.outFile.getD o.format.fileName⟩

/-- The configuration of the compilations. -/
def effectiveConfig (o : Options) : Config :=
  { o.config with verbose := o.verbose || o.config.verbose }

end Options

/-- The causes for which there is no configuration. -/
inductive ConfigError where
  | unreadable (file : Path) (e : FileError)
  | invalid (file : Path)
  deriving DecidableEq, Repr

namespace ConfigError

def message : ConfigError → String
  | unreadable file _ => "Failed to read config file " ++ file.text
  | invalid file => "Invalid config file " ++ file.text

/-- The message with what lies behind it. -/
def chain : ConfigError → String
  | e@(unreadable _ cause) => e.message ++ ": " ++ cause.message
  | e@(invalid _) => e.message

end ConfigError

namespace Config

/-- The file that is looked for if none is given. -/
def standardFile : Path := Path.join ⟨"."⟩ ⟨"poirot.json"⟩

variable {m : Type → Type} [Monad m]

/-- The configuration in a file. -/
def load (files : Files m) (file : Path) : m (Except ConfigError Config) := do
  match ← files.readText file with
  | .error e => return .error (.unreadable file e)
  | .ok text =>
      match read? text with
      | some c => return .ok c
      | none => return .error (.invalid file)

/-- The configuration in the file that is given, or else in the standard file if it is
there, or else the default one. -/
def resolve (files : Files m) : Option Path → m (Except ConfigError Config)
  | some file => load files file
  | none => do
      if ← files.isFile standardFile then load files standardFile
      else return .ok {}

end Config

end Stencil
