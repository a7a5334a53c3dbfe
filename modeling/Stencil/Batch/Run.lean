import Stencil.Batch.Discovery
import Stencil.Batch.Options
import Stencil.Compile.Template
import Stencil.Files.Tree
import Stencil.Script.Module

/-! # Batch runs

A run compiles every file that it discovers, each in a document of its own, and writes
one artifact with all templates. A failure ends it with nothing written, unless it is to
keep going.
-/

namespace Stencil.Batch

/-- What has come of a file. -/
structure Outcome where
  file : Path
  result : Except Diagnostic CompiledTemplate
  log : Log
  deriving Inhabited

/-- What is known of a run at some point. -/
structure Report where
  templates : Bundle := []
  diagnostics : List Diagnostic := []
  log : Log := []
  deriving Inhabited

/-- A text that is to be written. -/
structure Artifact where
  directory : Path
  file : Path
  text : String
  deriving Repr, Inhabited

/-- What a run comes to before anything is written. -/
structure Plan where
  report : Report
  artifact : Option Artifact := none
  deriving Inhabited

/-- What a run comes to: a report, and the artifact's file if it has been written. -/
structure Result where
  report : Report
  output : Option Path := none
  deriving Inhabited

namespace Report

def addDiagnostic (r : Report) (d : Diagnostic) : Report :=
  { r with diagnostics := r.diagnostics ++ [d] }

def addTemplate (r : Report) (file : Path) (t : CompiledTemplate) : Report where
  templates := r.templates ++ [(file.templateName, t)]
  diagnostics := r.diagnostics
  log := r.log ++ [⟨.debug, "compiled " ++ file.text ++ " as '" ++ file.templateName ++ "'"⟩]

/-- Goes through outcomes in order. A failure ends the run unless it is to keep going; a
name that is taken does not. -/
def gather (keepGoing : Bool) (r : Report) : List Outcome → Except Report Report
  | [] => .ok r
  | o :: os =>
      match o.result with
      | .error d =>
          if keepGoing then gather keepGoing (r.addDiagnostic d) os
          else .error (r.addDiagnostic d)
      | .ok t =>
          let name := o.file.templateName
          if (r.templates.lookup name).isSome then
            gather keepGoing (r.addDiagnostic (.duplicate o.file name)) os
          else gather keepGoing (r.addTemplate o.file t) os

end Report

/-- The artifact's text. -/
def artifactText (format : Format) (templates : Bundle) : String :=
  match format with
  | .json => templates.print
  | .script => Script.standardModule templates

/-- What is written when the outcomes are gathered. -/
def planOf (o : Options) : Except Report Report → Plan
  | .error r => { report := r }
  | .ok r =>
      if r.templates.isEmpty then
        { report := if r.diagnostics.isEmpty then r.addDiagnostic .nothingToCompile else r }
      else
        { report := r
          artifact := some {
            directory := o.outDir
            file := o.output
            text := artifactText o.format r.templates } }

variable {m : Type → Type} [Monad m]

/-- Compiles a file. -/
def compileFile (files : Files m) (config : Config) (file : Path) : m Outcome := do
  match ← files.readText file with
  | .error e => return { file, result := .error (.unreadable file e), log := [] }
  | .ok text =>
      let (result, _, log) :=
        (compileSource config { name := file.text, text }).run { name := file.text }
      return { file, result := result.mapError (.malformed file), log }

/-- Does all of a run but the writing. -/
def plan (files : Files m) (o : Options) : m Plan := do
  let found ← Discovery.ofPatterns files o.inputs
  let start : Report := { diagnostics := found.diagnostics }
  if !o.keepGoing && !found.diagnostics.isEmpty then
    return { report := start }
  let outcomes ← found.files.mapM (compileFile files o.effectiveConfig)
  let start := { start with log := (outcomes.map Outcome.log).flatten }
  return planOf o (start.gather o.keepGoing outcomes)

/-- Writes an artifact. -/
def save (storage : Storage m) (a : Artifact) : m (Except Diagnostic Unit) := do
  match ← storage.createDirectories a.directory with
  | .error e => return .error (.notCreated a.directory e)
  | .ok () => return (← storage.write a.file a.text).mapError (.notWritten a.file)

/-- Carries out a plan. -/
def finish (storage : Storage m) (p : Plan) : m Result := do
  match p.artifact with
  | none => return { report := p.report }
  | some a =>
      match ← save storage a with
      | .error d => return { report := p.report.addDiagnostic d }
      | .ok () =>
          let line := "Compiled " ++ toString p.report.templates.length ++ " templates into " ++
            a.file.text
          return {
            report := { p.report with log := p.report.log ++ [⟨.info, line⟩] }
            output := some a.file }

/-- The exit code of a run. -/
def Result.exitCode (r : Result) : Nat := if r.report.diagnostics.isEmpty then 0 else 1

/-- A run on files in memory: the result, and the files afterwards. -/
def perform (o : Options) (t : FileTree) : Result × FileTree :=
  let p : Plan := Id.run (plan t.files o)
  (finish FileTree.storage p).run t

end Stencil.Batch
