import Stencil.Batch.Options

/-! # Arguments

The words of a command line: inputs, options with a value, and flags. A value stands
behind its option as the next word, after an equals sign, or directly behind a letter.
-/

namespace Stencil.Cli

/-- What a command line asks for. -/
structure Invocation where
  inputs : List String := []
  outDir : Option String := none
  format : Option Format := none
  outFile : Option String := none
  config : Option String := none
  keepGoing : Bool := false
  verbose : Bool := false
  deriving DecidableEq, Repr, Inhabited

inductive Request where
  | help
  | version
  | compile (i : Invocation)
  deriving DecidableEq, Repr, Inhabited

/-- The causes for which a command line is refused. -/
inductive UsageError where
  | unexpected (word : String)
  | missingValue (option : String)
  | needlessValue (flag : String)
  | repeated (option : String)
  | badValue (option value : String)
  | missingInput
  deriving DecidableEq, Repr, Inhabited

namespace UsageError

def message : UsageError → String
  | unexpected word => "unexpected argument '" ++ word ++ "' found"
  | missingValue option => "a value is required for '" ++ option ++ "' but none was supplied"
  | needlessValue flag => "unexpected value for '" ++ flag ++ "' found; no more were expected"
  | repeated option => "the argument '" ++ option ++ "' cannot be used multiple times"
  | badValue option value => "invalid value '" ++ value ++ "' for '" ++ option ++ "'"
  | missingInput => "the following required arguments were not provided: <INPUT>..."

end UsageError

/-- The options that have a value. -/
inductive ValueOption where
  | outDir
  | format
  | outFile
  | config
  deriving DecidableEq, Repr

/-- What an option's name stands for. -/
inductive Switch where
  | value (o : ValueOption)
  | keepGoing
  | verbose
  | help
  | version
  deriving DecidableEq, Repr

namespace Switch

def ofName? (name : String) : Option Switch :=
  [("outdir", value .outDir), ("format", value .format), ("out-file", value .outFile),
    ("config", value .config), ("keep-going", keepGoing), ("verbose", verbose), ("help", help),
    ("version", version)].lookup name

def ofLetter? (letter : Char) : Option Switch :=
  [('o', value .outDir), ('c', value .config), ('v', verbose), ('h', help), ('V', version)].lookup
    letter

end Switch

namespace Invocation

/-- Gives an option its value, which it has only once. -/
def setValue (i : Invocation) (o : ValueOption) (value : String) : Except UsageError Invocation :=
  match o with
  | .outDir =>
      if i.outDir.isSome then .error (.repeated "--outdir") else .ok { i with outDir := some value }
  | .outFile =>
      if i.outFile.isSome then .error (.repeated "--out-file")
      else .ok { i with outFile := some value }
  | .config =>
      if i.config.isSome then .error (.repeated "--config") else .ok { i with config := some value }
  | .format =>
      match Format.parse? value with
      | none => .error (.badValue "--format" value)
      | some f =>
          if i.format.isSome then .error (.repeated "--format") else .ok { i with format := some f }

def setKeepGoing (i : Invocation) : Except UsageError Invocation :=
  if i.keepGoing then .error (.repeated "--keep-going") else .ok { i with keepGoing := true }

def setVerbose (i : Invocation) : Except UsageError Invocation :=
  if i.verbose then .error (.repeated "--verbose") else .ok { i with verbose := true }

def addInputs (i : Invocation) (words : List String) : Invocation :=
  { i with inputs := i.inputs ++ words }

end Invocation

/-- What is left to do when a word has been read. -/
inductive Pending where
  | none (i : Invocation)
  /-- The next word is the value of an option. -/
  | value (o : ValueOption) (i : Invocation)
  /-- The request is known, whatever follows. -/
  | done (r : Request)
  deriving Repr

/-- Reads the letters behind a dash. -/
def readLetters (i : Invocation) (word : String) : List Char → Except UsageError Pending
  | [] => .ok (.none i)
  | c :: cs =>
      match Switch.ofLetter? c with
      | none => .error (.unexpected word)
      | some .help => .ok (.done .help)
      | some .version => .ok (.done .version)
      | some .verbose => do readLetters (← i.setVerbose) word cs
      | some .keepGoing => do readLetters (← i.setKeepGoing) word cs
      | some (.value o) =>
          match cs with
          | [] => .ok (.value o i)
          | '=' :: cs => return .none (← i.setValue o (String.ofList cs))
          | cs => return .none (← i.setValue o (String.ofList cs))

/-- Reads what follows two dashes. -/
def readName (i : Invocation) (word : String) (cs : List Char) : Except UsageError Pending :=
  let name := String.ofList (cs.takeWhile (· != '='))
  let value : Option String :=
    match cs.dropWhile (· != '=') with
    | _ :: value => some (String.ofList value)
    | [] => none
  match Switch.ofName? name, value with
  | none, _ => .error (.unexpected word)
  | some (.value o), none => .ok (.value o i)
  | some (.value o), some value => return .none (← i.setValue o value)
  | some _, some _ => .error (.needlessValue word)
  | some .keepGoing, none => return .none (← i.setKeepGoing)
  | some .verbose, none => return .none (← i.setVerbose)
  | some .help, none => .ok (.done .help)
  | some .version, none => .ok (.done .version)

/-- Reads a word that is no value of the option before it. -/
def readWord (i : Invocation) (word : String) : Except UsageError Pending :=
  match word.toList with
  | '-' :: '-' :: cs => readName i word cs
  | '-' :: c :: cs => readLetters i word (c :: cs)
  | _ => .ok (.none (i.addInputs [word]))

/-- Whether a word looks like an option. -/
def isOption (word : String) : Bool := word.toList.head? == some '-' && word != "-"

/-- Reads the words of a command line. Behind two dashes alone all words are inputs. -/
def readWords (i : Invocation) : List String → Except UsageError Request
  | [] => if i.inputs.isEmpty then .error .missingInput else .ok (.compile i)
  | "--" :: words =>
      let i := i.addInputs words
      if i.inputs.isEmpty then .error .missingInput else .ok (.compile i)
  | word :: words => do
      match ← readWord i word with
      | .done r => return r
      | .none i => readWords i words
      | .value o i =>
          match words with
          | [] => throw (.missingValue word)
          | value :: words =>
              if isOption value then throw (.missingValue word)
              else readWords (← i.setValue o value) words

end Stencil.Cli
