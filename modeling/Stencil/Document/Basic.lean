import Stencil.Markup.Tree

/-! # Documents

A document keeps its nodes in numbered slots. A slot that is given up is the first to be
used again. Every node knows its parent and its children; a subtree can be read off as a
tree whose labels are the numbers of its nodes.
-/

namespace Stencil

open Markup

/-- The number of a node's slot. -/
structure NodeId where
  index : Nat
  deriving DecidableEq, Repr, Inhabited

/-- How messages write a node. -/
def NodeId.shown (id : NodeId) : String := "NodeId(" ++ toString id.index ++ ")"

/-- The causes for which an operation on nodes is refused. -/
inductive DomError where
  /-- No node has this number. -/
  | unknownNode (id : NodeId)
  /-- Only elements and fragments hold children. -/
  | notAContainer (id : NodeId)
  | notAChild (parent child : NodeId)
  | notAnElement (id : NodeId)
  /-- A doctype has no text. -/
  | notText (id : NodeId)
  /-- Markup that cannot be used. -/
  | markup (words : String)
  /-- A node cannot be put into its own subtree. -/
  | cycle (parent child : NodeId)
  deriving DecidableEq, Repr, Inhabited

namespace DomError

def message : DomError → String
  | unknownNode id => "Unknown node " ++ id.shown
  | notAContainer id => "Node " ++ id.shown ++ " cannot hold children"
  | notAChild parent child => "Node " ++ child.shown ++ " is not a child of " ++ parent.shown
  | notAnElement id => "Node " ++ id.shown ++ " is not an element"
  | notText id => "Node " ++ id.shown ++ " has no text value"
  | markup words => "Markup error: " ++ words
  | cycle parent child =>
      "Inserting " ++ child.shown ++ " into " ++ parent.shown ++ " would create a cycle"

end DomError

/-- A node with its links. -/
structure Node where
  data : NodeData
  parent : Option NodeId
  children : List NodeId
  deriving Inhabited

structure Document where
  slots : Array (Option Node) := #[]
  /-- The slots that were given up, the latest first. -/
  free : List Nat := []
  /-- The name under which faults of parsed markup are reported. -/
  name : String := ""
  /-- A strict document refuses markup with flaws instead of mending it. -/
  strict : Bool := false
  deriving Inhabited

namespace Document

/-- The number of nodes in use. -/
def size (d : Document) : Nat := d.slots.size - d.free.length

/-- The node with a number, if there is one. -/
def node? (d : Document) (id : NodeId) : Option Node := d.slots[id.index]?.join

/-- The node with a number. -/
def node (d : Document) (id : NodeId) : Except DomError Node :=
  match d.node? id with
  | some n => .ok n
  | none => .error (.unknownNode id)

/-- Puts a node into the slot given up last, or into a new one. -/
def allocate (d : Document) (n : Node) : NodeId × Document :=
  match d.free with
  | slot :: rest => (⟨slot⟩, { d with slots := d.slots.setIfInBounds slot (some n), free := rest })
  | [] => (⟨d.slots.size⟩, { d with slots := d.slots.push (some n) })

/-- Adds a node without links. -/
def create (d : Document) (data : NodeData) : NodeId × Document :=
  d.allocate { data, parent := none, children := [] }

/-- Changes the node with a number, if there is one. -/
def modify (d : Document) (id : NodeId) (f : Node → Node) : Document :=
  { d with slots := d.slots.modify id.index (Option.map f) }

/-- Empties a slot in use. -/
def vacate? (d : Document) (id : NodeId) : Option (Node × Document) :=
  (d.node? id).map fun n =>
    (n, { d with slots := d.slots.setIfInBounds id.index none, free := id.index :: d.free })

/-- The number of slots that hold a node. -/
def occupied (d : Document) : Nat := d.slots.countP Option.isSome

theorem node?_eq_some {d : Document} {id : NodeId} {n : Node} (h : d.node? id = some n) :
    ∃ bound : id.index < d.slots.size, d.slots[id.index] = some n := by
  unfold node? at h
  cases hs : d.slots[id.index]? with
  | none => simp [hs] at h
  | some slot =>
      rw [hs] at h
      obtain ⟨bound, same⟩ := Array.getElem?_eq_some_iff.1 hs
      exact ⟨bound, by rw [same]; simpa using h⟩

theorem occupied_vacate?_lt {d rest : Document} {id : NodeId} {n : Node}
    (h : d.vacate? id = some (n, rest)) : rest.occupied < d.occupied := by
  obtain ⟨m, found, same⟩ := Option.map_eq_some_iff.1 h
  simp only [Prod.mk.injEq] at same
  obtain ⟨_, rfl⟩ := same
  obtain ⟨bound, slot⟩ := node?_eq_some found
  have member : Option.isSome d.slots[id.index] = true := by rw [slot]; rfl
  have positive : 0 < d.slots.countP Option.isSome :=
    Array.countP_pos_iff.2 ⟨_, Array.getElem_mem bound, member⟩
  simp only [occupied, Array.setIfInBounds, bound, dif_pos]
  rw [Array.countP_set]
  simp only [member, if_true, Option.isSome_none, Bool.false_eq_true, if_false]
  omega

/-! ## Subtrees -/

/-- The subtree of a node, as far as `fuel` levels reach. -/
def treeWithin (d : Document) : Nat → NodeId → Except DomError (NodeTree NodeId)
  | 0, id => .error (.unknownNode id)
  | fuel + 1, id => do
      let n ← d.node id
      return .node id n.data (← n.children.mapM (d.treeWithin fuel))

/-- The subtree of a node. No chain of nodes is longer than there are slots. -/
def tree (d : Document) (id : NodeId) : Except DomError (NodeTree NodeId) :=
  d.treeWithin (d.slots.size + 1) id

/-! ## Questions -/

def data (d : Document) (id : NodeId) : Except DomError NodeData := return (← d.node id).data

def children (d : Document) (id : NodeId) : Except DomError (List NodeId) :=
  return (← d.node id).children

def parent (d : Document) (id : NodeId) : Except DomError (Option NodeId) :=
  return (← d.node id).parent

def firstChild? (d : Document) (id : NodeId) : Except DomError (Option NodeId) :=
  return (← d.children id).head?

/-- The first child that is an element. -/
def firstElement? (d : Document) (id : NodeId) : Except DomError (Option NodeId) := do
  (← d.children id).findM? fun child => return (← d.data child).isElement

/-- The markup of a node. -/
def serialize (d : Document) (id : NodeId) : Except DomError String :=
  return (← d.tree id).print false

/-- The markup of the children of a node. -/
def inner (d : Document) (id : NodeId) : Except DomError String := return (← d.tree id).inner

def tagName (d : Document) (id : NodeId) : Except DomError String := do
  match ← d.data id with
  | .element name _ => return name
  | _ => throw (.notAnElement id)

/-- The attributes of an element, in order. -/
def attributes (d : Document) (id : NodeId) : Except DomError (List (String × Value)) := do
  match ← d.data id with
  | .element _ attributes => return attributes
  | _ => throw (.notAnElement id)

def attributeNames (d : Document) (id : NodeId) : Except DomError (List String) :=
  return (← d.attributes id).map (·.1)

def attributeValue? (d : Document) (id : NodeId) (name : String) :
    Except DomError (Option Value) :=
  return (← d.attributes id).lookup name

/-- The text of an attribute. -/
def attribute? (d : Document) (id : NodeId) (name : String) : Except DomError (Option String) :=
  return (← d.attributeValue? id name).map Value.text

def hasAttribute (d : Document) (id : NodeId) (name : String) : Except DomError Bool :=
  return (← d.attributeValue? id name).isSome

/-- The value of a text or comment, or the text below an element or fragment. -/
def text (d : Document) (id : NodeId) : Except DomError String := do
  match ← d.data id with
  | .text value => return value
  | .comment value => return value
  | .doctype _ => throw (.notText id)
  | _ => return (← d.tree id).textContent

end Document

end Stencil
