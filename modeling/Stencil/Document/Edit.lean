import Stencil.Document.Basic

/-! # Edits

Changes to a document. An edit that is refused leaves behind what it did before. Putting
a fragment somewhere puts its children there and leaves the fragment empty.
-/

namespace Stencil

open Markup

/-- A change of a document that may be refused. -/
abbrev Edit : Type → Type := EStateM DomError Document

namespace Edit

/-- Asks the document a question. -/
def ask {α : Type} (question : Document → Except DomError α) : Edit α := fun d =>
  match question d with
  | .ok a => .ok a d
  | .error e => .error e d

/-- Changes the document in a way that cannot be refused. -/
def change {α : Type} (f : Document → α × Document) : Edit α := fun d =>
  let (a, d) := f d
  .ok a d

/-- Changes one node. -/
def modifyNode (id : NodeId) (f : Node → Node) : Edit Unit := do
  discard (ask (·.node id))
  modify fun d => d.modify id f

def setParent (parent : Option NodeId) (id : NodeId) : Edit Unit :=
  modifyNode id fun n => { n with parent }

def setChildren (id : NodeId) (children : List NodeId) : Edit Unit :=
  modifyNode id fun n => { n with children }

end Edit

namespace Document

open Edit

/-! ## New nodes -/

/-- A new element; its name is kept in small letters. -/
def createElement (name : String) : Edit NodeId :=
  change fun d => d.create (.element (Text.lower name) [])

def createText (value : String) : Edit NodeId := change fun d => d.create (.text value)

/-! ## Attributes -/

/-- Gives an attribute a value: one that is there keeps its place, a new one comes last. -/
def setAttributeValue (id : NodeId) (name : String) (value : Value) : Edit Unit := do
  let entries ← ask (·.attributes id)
  modifyNode id fun n =>
    match n.data with
    | .element tag _ => { n with data := .element tag (Value.putField name value entries) }
    | _ => n

def setAttribute (id : NodeId) (name value : String) : Edit Unit :=
  setAttributeValue id name (.string value)

def removeAttribute (id : NodeId) (name : String) : Edit Unit := do
  let entries ← ask (·.attributes id)
  modifyNode id fun n =>
    match n.data with
    | .element tag _ => { n with data := .element tag (entries.filter (·.1 != name)) }
    | _ => n

/-! ## Moving nodes -/

def requireContainer (id : NodeId) : Edit Unit := do
  unless (← ask (·.data id)).isContainer do
    throw (.notAContainer id)

/-- Whether `candidate` is `id` or one of the nodes above it, looking `fuel` levels up. Where the
fuel runs out the answer is no; a climb without a limit would not end there. -/
def isAboveWithin (d : Document) (candidate : NodeId) : Nat → NodeId → Except DomError Bool
  | 0, _ => .ok false
  | fuel + 1, id =>
      if id = candidate then .ok true
      else do
        match (← d.node id).parent with
        | some above => d.isAboveWithin candidate fuel above
        | none => return false

/-- Whether `candidate` is `id` or one of the nodes above it. -/
def isAbove (d : Document) (candidate id : NodeId) : Except DomError Bool :=
  d.isAboveWithin candidate (d.slots.size + 1) id

/-- Takes a node out of its parent. -/
def detach (child : NodeId) : Edit Unit := do
  match ← ask (·.parent child) with
  | none => return ()
  | some parent =>
      modifyNode parent fun n => { n with children := n.children.filter (· != child) }
      setParent none child

/-- Takes what is to be put into `parent` for `child`: the children of a fragment, else the
node itself. -/
def takeFor (parent child : NodeId) : Edit (List NodeId) := do
  requireContainer parent
  let n ← ask (·.node child)
  let moved ← match n.data with
    | .fragment =>
        setChildren child []
        pure n.children
    | _ =>
        if ← ask (·.isAbove child parent) then
          throw (.cycle parent child)
        detach child
        pure [child]
  for id in moved do
    setParent (some parent) id
  return moved

/-- The place of a child among the children of its parent. -/
def place (parent child : NodeId) : Edit Nat := do
  match (← ask (·.children parent)).findIdx? (· == child) with
  | some index => return index
  | none => throw (.notAChild parent child)

/-- Puts a node behind the children of another. -/
def append (parent child : NodeId) : Edit Unit := do
  let moved ← takeFor parent child
  modifyNode parent fun n => { n with children := n.children ++ moved }

/-- Puts a node before a child of another. -/
def insertBefore (parent child reference : NodeId) : Edit Unit := do
  if child = reference then
    return ()
  discard (place parent reference)
  let moved ← takeFor parent child
  let index ← place parent reference
  modifyNode parent fun n =>
    { n with children := n.children.take index ++ moved ++ n.children.drop index }

/-- Takes a child out of its parent and keeps it. -/
def remove (parent child : NodeId) : Edit Unit := do
  let index ← place parent child
  modifyNode parent fun n => { n with children := n.children.eraseIdx index }
  setParent none child

/-- Puts a node in the place of a child. -/
def replace (parent new old : NodeId) : Edit Unit := do
  if new = old then
    return ()
  insertBefore parent new old
  remove parent old

/-! ## Reading markup -/

/-- An element whose closing tag has not been read: its node, and where its open tag stands. -/
structure OpenNode where
  id : NodeId
  name : String
  start : Nat
  stop : Nat
  deriving Inhabited

/-- Whether the element may be left without a closing tag. -/
def OpenNode.isOptional (e : OpenNode) : Bool := !(TagRules.of e.name).closedBy.isEmpty

/-- The node that the next one is put into: the innermost open element, or the root. -/
def innermost (root : NodeId) : List OpenNode → NodeId
  | [] => root
  | top :: _ => top.id

/-- The reading of tokens so far: the fragment for the nodes, the open elements, innermost
first, and the flaws, last first. -/
structure Builder where
  root : NodeId
  opened : List OpenNode
  flaws : List Flaw
  deriving Inhabited

namespace Builder

/-- Puts a new node into the innermost open element. A refusal is passed over; a new node is
above no other, so that there is none. -/
def add (b : Builder) (data : NodeData) : Edit NodeId := do
  let id ← change fun d => d.create data
  tryCatch (append (innermost b.root b.opened) id) fun _ => pure ()
  return id

def report (b : Builder) (fault : Fault) (start stop : Nat) : Builder :=
  { b with flaws := ⟨fault, start, stop⟩ :: b.flaws }

/-- Leaves the innermost open element. -/
def pop (b : Builder) : Builder := { b with opened := b.opened.tail }

/-- Reports the innermost open element unless its closing tag is optional. -/
def reportTop (b : Builder) : Builder :=
  match b.opened with
  | [] => b
  | top :: _ =>
      if top.isOptional then b else b.report (.unclosedElement top.name) top.start top.stop

/-- Leaves and reports the `n` innermost open elements. -/
def abandon : Nat → Builder → Builder
  | 0, b => b
  | n + 1, b => abandon n b.reportTop.pop

/-- Reads one token. -/
def step (b : Builder) (token : Token) : Edit Builder :=
  match token.lexeme with
  | .text value => do
      discard (b.add (.text value))
      return b
  | .comment value => do
      discard (b.add (.comment value))
      return b
  | .doctype value => do
      discard (b.add (.doctype value))
      return b
  | .openTag name attributes selfClosing => do
      let b := { b with opened := b.opened.dropWhile fun e => (TagRules.of e.name).isClosedBy name }
      let id ← b.add (.element name (firstAttributes attributes))
      if (TagRules.of name).isVoid || selfClosing then
        return b
      else
        return { b with opened := ⟨id, name, token.start, token.stop⟩ :: b.opened }
  | .closeTag name =>
      if (TagRules.of name).isVoid then
        return b.report (.voidClosingTag name) token.start token.stop
      else
        match b.opened.findIdx? (·.name == name) with
        | some inside => return (b.abandon inside).pop
        | none => return b.report (.unexpectedClosingTag name) token.start token.stop

end Builder

/-- A new fragment with the nodes of some markup, and what had to be mended. -/
def plantMarkup (markup : String) : Edit (NodeId × List SyntaxError) := do
  let source : Source := { name := (← get).name, text := markup }
  let (tokens, flaws) := tokenize markup
  let root ← change fun d => d.create .fragment
  let built ← tokens.foldlM Builder.step { root, opened := [], flaws := [] }
  let built := built.abandon built.opened.length
  return (root, (flaws ++ built.flaws.reverse).map (Flaw.report source))

/-- A new fragment with the nodes of some markup. -/
def parseMarkup (markup : String) : Edit NodeId := do
  let (root, errors) ← plantMarkup markup
  if (← get).strict && !errors.isEmpty then
    throw (.markup (String.intercalate "\n" (errors.map SyntaxError.message)))
  return root

/-! ## Giving nodes up -/

/-- Gives up the nodes of a stack and everything below them, the last child first. -/
def vacateAll (d : Document) : List NodeId → Document
  | [] => d
  | id :: stack =>
      match h : d.vacate? id with
      | none => d.vacateAll stack
      | some (n, rest) =>
          have := occupied_vacate?_lt h
          rest.vacateAll (n.children.reverse ++ stack)
termination_by stack => (d.occupied, stack.length)

/-- Takes a node out of its parent and gives it up with everything below it. -/
def release (id : NodeId) : Edit Unit := do
  detach id
  change fun d => ((), d.vacateAll [id])

/-- Takes all children out of a node and keeps them. -/
def clear (id : NodeId) : Edit Unit := do
  for child in ← ask (·.children id) do
    remove id child

/-- Gives up all children of a node. -/
def discardChildren (id : NodeId) : Edit Unit := do
  for child in ← ask (·.children id) do
    release child

/-- Puts the children of one node behind those of another. -/
def moveChildren (source target : NodeId) : Edit Unit := do
  for child in ← ask (·.children source) do
    append target child

/-! ## Content -/

/-- Sets the value of a text or comment, or replaces all children by one text. -/
def setText (id : NodeId) (value : String) : Edit Unit := do
  match ← ask (·.data id) with
  | .text _ => modifyNode id fun n => { n with data := .text value }
  | .comment _ => modifyNode id fun n => { n with data := .comment value }
  | .doctype _ => throw (.notText id)
  | _ =>
      discardChildren id
      unless value.isEmpty do
        append id (← createText value)

/-- Replaces all children by the nodes of some markup. -/
def setInner (id : NodeId) (markup : String) : Edit Unit := do
  requireContainer id
  let fragment ← parseMarkup markup
  discardChildren id
  append id fragment
  release fragment

/-! ## Copies -/

/-- A copy of a node alone. -/
def copy (id : NodeId) : Edit NodeId := do
  let data ← ask (·.data id)
  change fun d => d.create data

/-- Gives a new node to another one as its last child. -/
def hang (parent child : NodeId) : Edit Unit := do
  setParent (some parent) child
  modifyNode parent fun n => { n with children := n.children ++ [child] }

/-- A copy of a node with what is below it, as far as `fuel` levels reach: the copy of the node
comes first, and the copy of each child is made as a whole before it is hung up. -/
def copyWithin : Nat → NodeId → Edit NodeId
  | 0, id => throw (.unknownNode id)
  | fuel + 1, id => do
      let root ← copy id
      (← ask (·.children id)).forM fun child => do hang root (← copyWithin fuel child)
      return root

/-- A copy of a node with everything below it. No chain of nodes is longer than there are slots;
where links form a cycle the copy ends with an error instead of going on for ever. -/
def copyTree (id : NodeId) : Edit NodeId := do
  let levels ← ask fun d => .ok d.slots.size
  copyWithin levels id

/-- Puts a copy of a node, with everything below it, behind the children of another. -/
def appendCopy (parent id : NodeId) : Edit Unit := do
  append parent (← copyTree id)

/-- A copy of a node alone, with copies of its children put into it one by one. -/
def copyByParts (id : NodeId) : Edit NodeId := do
  let root ← copy id
  let children ← ask (·.children id)
  children.forM (appendCopy root)
  return root

end Document

end Stencil
