import Stencil.Batch.Run
import Stencil.Cli.Arguments

/-! # The command

Reads the words of a command line, runs, and says what is to be printed and how the
program ends.
-/

namespace Stencil.Cli

def programName : String := "poirotc"

def versionText : String := programName ++ " 0.1.0\n"

def usage : String := "Usage: " ++ programName ++ " [OPTIONS] <INPUT>..."

def helpText : String :=
  String.intercalate "\n" [
    "Poirot template compiler",
    "",
    usage,
    "",
    "Arguments:",
    "  <INPUT>...  Template files or glob patterns",
    "",
    "Options:",
    "  -o, --outdir <DIR>     Directory receiving the artifact [default: .]",
    "      --format <format>  Artifact encoding [default: json] [possible values: json, js]",
    "      --out-file <FILE>  Artifact file name (default templates.json or templates.js)",
    "      --keep-going       Keep compiling after a failure and write what succeeded",
    "  -c, --config <PATH>    Compiler configuration file (default ./poirot.json when present)",
    "  -v, --verbose          Trace compilation steps",
    "  -h, --help             Print help",
    "  -V, --version          Print version",
    ""]

/-- What a program prints, and its exit code. -/
structure Output where
  exit : Nat
  stdout : String := ""
  stderr : String := ""
  deriving DecidableEq, Repr, Inhabited

def UsageError.output (e : UsageError) : Output where
  exit := 2
  stderr := "error: " ++ e.message ++ "\n\n" ++ usage ++ "\n\nFor more information, try '--help'.\n"

/-- The options of a run with some configuration. -/
def Invocation.options (i : Invocation) (config : Config) : Options where
  inputs := i.inputs
  outDir := ⟨i.outDir.getD "."⟩
  outFile := i.outFile
  format := i.format.getD .json
  keepGoing := i.keepGoing
  verbose := i.verbose
  config := config

/-- Lines of text. -/
def unlines (lines : List String) : String := String.join (lines.map (· ++ "\n"))

/-- What is printed about a run. Only what is informative goes to the standard output. -/
def report (o : Options) (r : Batch.Result) : Output :=
  let log := r.report.log.taken (.forConsole o.effectiveConfig)
  let (news, rest) := log.partition fun e => e.level == .info
  let summary := r.output.toList.map fun file =>
    toString r.report.templates.length ++ " templates -> " ++ file.text
  { exit := r.exitCode
    stdout := unlines (news.map (LogEntry.lineFrom programName) ++ summary)
    stderr := unlines (rest.map (LogEntry.lineFrom programName)) ++
      Diagnostic.lines r.report.diagnostics }

variable {m n : Type → Type} [Monad m] [Monad n] [MonadLiftT m n]

/-- Does what an invocation asks for: looks at files, and then writes. -/
def Invocation.run (files : Files m) (storage : Storage n) (i : Invocation) : n Output := do
  match ← (Config.resolve files (i.config.map Path.mk) : m _) with
  | .error e => return { exit := 2, stderr := "error: " ++ e.chain ++ "\n" }
  | .ok config =>
      let o := i.options config
      return report o (← Batch.finish storage (← (Batch.plan files o : m _)))

/-- Does what the words of a command line ask for. -/
def run (files : Files m) (storage : Storage n) (words : List String) : n Output := do
  match readWords {} words with
  | .error e => return e.output
  | .ok .help => return { exit := 0, stdout := helpText }
  | .ok .version => return { exit := 0, stdout := versionText }
  | .ok (.compile i) => i.run files storage

/-- Runs on files in memory: what is printed, and the files afterwards. -/
def runOn (t : FileTree) (words : List String) : Output × FileTree :=
  (run t.files FileTree.storage words : StateM FileTree Output).run t

end Stencil.Cli
