import Stencil.Compile.Hosts
import Stencil.Document.Edit
import Stencil.Error
import Stencil.Log

/-! # Compilations

A compilation changes a document, collects references for hosts and reports its steps.
One that fails leaves the document as it is then.
-/

namespace Stencil

/-- What a compilation works on. -/
structure Workbench where
  document : Document
  hosts : Hosts := {}
  /-- The steps that have been reported, the latest first. -/
  steps : List String := []
  deriving Inhabited

/-- A computation on a workbench that may fail. -/
abbrev Compile : Type → Type := EStateM TemplateError Workbench

namespace Compile

/-- Changes the document. -/
def edit {α : Type} (e : Edit α) : Compile α := fun w =>
  match e w.document with
  | .ok a document => .ok a { w with document }
  | .error error document => .error (.dom error) { w with document }

/-- Asks the document a question. -/
def ask {α : Type} (question : Document → Except DomError α) : Compile α :=
  edit (Edit.ask question)

/-- What a text denotes, unless it is malformed. -/
def lift {α : Type} : Except SyntaxError α → Compile α
  | .ok a => pure a
  | .error e => throw (.malformed e)

/-- Reports a step. -/
def trace (config : Config) (step : Unit → String) : Compile Unit :=
  if config.verbose then modify fun w => { w with steps := step () :: w.steps } else pure ()

/-- The identity of a node as a host. -/
def hostFor (node : NodeId) : Compile HostId :=
  modifyGet fun w =>
    let (id, hosts) := w.hosts.hostFor node
    (id, { w with hosts })

/-- Adds a reference to a node. -/
def refer (node : NodeId) (r : Reference CompiledTemplate) : Compile Unit := do
  let id ← hostFor node
  modify fun w => { w with hosts := w.hosts.push id r }

/-- Runs a computation with hosts of its own. -/
def withHosts {α : Type} (body : Compile α) : Compile α := do
  let outer := (← get).hosts
  modify fun w => { w with hosts := {} }
  let a ← body
  modify fun w => { w with hosts := outer }
  return a

/-- The outcome of a compilation in a document: the result, the document afterwards, and
the log. -/
def run {α : Type} (body : Compile α) (d : Document) : Except TemplateError α × Document × Log :=
  let log (w : Workbench) : Log := w.steps.reverse.map fun step => ⟨.debug, step⟩
  match body { document := d } with
  | .ok a w => (.ok a, w.document, log w)
  | .error e w => (.error e, w.document, log w)

end Compile

end Stencil
