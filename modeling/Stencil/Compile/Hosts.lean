import Stencil.Compiled.Basic
import Stencil.Document.Basic

/-! # Hosts

The elements of a template to which references belong. Every host has an identity, its
place in the table, which it keeps when another node takes its part.
-/

namespace Stencil

/-- The place of a host in its table. -/
@[ext]
structure HostId where
  index : Nat
  deriving DecidableEq, Repr, Inhabited

/-- The hosts of a template: the identity of each node that is one, and by identity the node
and its references in order. -/
structure Hosts where
  ids : List (NodeId × HostId) := []
  nodes : List NodeId := []
  slots : List (List (Reference CompiledTemplate)) := []
  deriving Inhabited

namespace Hosts

/-- The identities of all nodes but one. -/
def withdraw (node : NodeId) (ids : List (NodeId × HostId)) : List (NodeId × HostId) :=
  ids.filter (·.1 != node)

/-- Gives a node an identity, in place of any that it has. -/
def assign (node : NodeId) (id : HostId) (ids : List (NodeId × HostId)) : List (NodeId × HostId) :=
  (node, id) :: withdraw node ids

/-- The identity of a node. -/
def find? (h : Hosts) (node : NodeId) : Option HostId := h.ids.lookup node

/-- The identity of a node, which becomes a host if it is none. -/
def hostFor (h : Hosts) (node : NodeId) : HostId × Hosts :=
  match h.find? node with
  | some id => (id, h)
  | none =>
      let id : HostId := ⟨h.nodes.length⟩
      (id, { ids := assign node id h.ids, nodes := h.nodes ++ [node], slots := h.slots ++ [[]] })

/-- Adds a reference to a host. -/
def push (h : Hosts) (id : HostId) (r : Reference CompiledTemplate) : Hosts :=
  { h with slots := h.slots.modify id.index (· ++ [r]) }

/-- The table in which a node has an identity that another node has had. -/
def rekeyed (h : Hosts) (old new : NodeId) (id : HostId) : Hosts :=
  { h with ids := assign new id (withdraw old h.ids), nodes := h.nodes.set id.index new }

/-- Gives the identity of one node to another. -/
def rekey? (h : Hosts) (old new : NodeId) : Option (HostId × Hosts) :=
  (h.find? old).map fun id => (id, h.rekeyed old new id)

/-- The table in which a host has no references. -/
def emptied (h : Hosts) (id : HostId) : Hosts := { h with slots := h.slots.set id.index [] }

/-- The references of a node, which it has no longer afterwards. -/
def takeSlot? (h : Hosts) (node : NodeId) : Option (List (Reference CompiledTemplate) × Hosts) :=
  (h.find? node).map fun id => ((h.slots[id.index]?).getD [], h.emptied id)

end Hosts

end Stencil
