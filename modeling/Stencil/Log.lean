import Stencil.Config

/-! # Logs

Lines of text at four levels. A logger takes the lines at its own level and above.
-/

namespace Stencil

/-- How much a line matters. -/
inductive Level where
  | debug
  | info
  | warn
  | error
  deriving DecidableEq, Repr, Inhabited

namespace Level

def rank : Level → Nat
  | debug => 0
  | info => 1
  | warn => 2
  | error => 3

def label : Level → String
  | debug => "DEBUG"
  | info => "INFO"
  | warn => "WARN"
  | error => "ERROR"

/-- The name of a level in structured output. -/
def shown : Level → String
  | debug => "Debug"
  | info => "Info"
  | warn => "Warn"
  | error => "Error"

/-- Whether a logger at this level takes lines at another. -/
def enables (own level : Level) : Bool := own.rank ≤ level.rank

/-- The level of a logger on a console: all lines of a verbose run, else warnings and errors. -/
def forConsole (config : Config) : Level := if config.verbose then debug else warn

end Level

/-- A line before it is written. -/
structure LogEntry where
  level : Level
  text : String
  deriving DecidableEq, Repr, Inhabited

namespace LogEntry

/-- The line of an entry. -/
def line (e : LogEntry) : String := "[" ++ e.level.label ++ "] " ++ e.text

/-- The line of an entry under the name of its source. -/
def lineFrom (source : String) (e : LogEntry) : String :=
  "[" ++ e.level.label ++ "] " ++ source ++ ": " ++ e.text

end LogEntry

/-- Entries in order. -/
abbrev Log : Type := List LogEntry

namespace Log

/-- The entries that a logger at `level` takes. -/
def taken (level : Level) (log : Log) : Log := log.filter fun e => level.enables e.level

/-- The lines of the entries that a logger at `level` takes. -/
def lines (level : Level) (log : Log) : List String := (log.taken level).map LogEntry.line

/-- The texts at exactly one level, of the entries that a logger at `own` takes. -/
def textsAt (own level : Level) (log : Log) : List String :=
  ((log.taken own).filter fun e => e.level == level).map LogEntry.text

end Log

end Stencil
