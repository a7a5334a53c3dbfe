import Stencil.Compile.Monad
import Stencil.Proofs.Compile.Plan

/-! # The table of hosts

Identities, nodes and references are three parts of a table that fit together after every change.
What looking up a node gives is said for each change in turn.
-/

namespace Stencil

namespace Hosts

variable {h : Hosts} {x y : NodeId} {s : Slot} {id : HostId}

/-! ## Identities -/

theorem lookup_eq_none {α β : Type} [DecidableEq α] {entries : List (α × β)} {x : α} :
    entries.lookup x = none ↔ x ∉ entries.map Prod.fst := by
  rw [List.lookup_eq_none_iff]
  constructor
  · intro apart mem
    obtain ⟨entry, listed, same⟩ := List.mem_map.1 mem
    have other := apart entry listed
    simp [same] at other
  · intro out entry listed
    have other : x ≠ entry.1 := by
      intro same
      exact out (List.mem_map.2 ⟨entry, listed, same.symm⟩)
    simpa using other

theorem lookup_withdraw (x y : NodeId) (ids : List (NodeId × HostId)) :
    (withdraw x ids).lookup y = if y = x then none else ids.lookup y := by
  induction ids with
  | nil => simp [withdraw]
  | cons entry ids ih =>
      obtain ⟨node, id⟩ := entry
      unfold withdraw at ih ⊢
      by_cases gone : node = x
      · subst gone
        rw [List.filter_cons_of_neg (by simp), ih, List.lookup_cons]
        by_cases here : y = node
        · simp [here]
        · simp [here, beq_false_of_ne here]
      · rw [List.filter_cons_of_pos (by simpa using gone), List.lookup_cons, List.lookup_cons, ih]
        by_cases here : y = node
        · subst here
          simp [gone]
        · simp [beq_false_of_ne here]

theorem lookup_assign (x y : NodeId) (id : HostId) (ids : List (NodeId × HostId)) :
    (assign x id ids).lookup y = if y = x then some id else ids.lookup y := by
  rw [assign, List.lookup_cons, lookup_withdraw]
  by_cases here : y = x
  · simp [here]
  · simp [here, beq_false_of_ne here]

theorem nodup_withdraw {ids : List (NodeId × HostId)} (once : (ids.map Prod.fst).Nodup)
    (x : NodeId) : ((withdraw x ids).map Prod.fst).Nodup :=
  once.sublist (List.filter_sublist.map _)

theorem nodup_assign {ids : List (NodeId × HostId)} (once : (ids.map Prod.fst).Nodup)
    (x : NodeId) (id : HostId) : ((assign x id ids).map Prod.fst).Nodup := by
  rw [assign, List.map_cons]
  refine List.nodup_cons.2 ⟨lookup_eq_none.1 ?_, nodup_withdraw once x⟩
  rw [lookup_withdraw, if_pos rfl]

/-! ## Tables that fit together -/

/-- The references of a node that is a host. -/
def slot? (h : Hosts) (x : NodeId) : Option Slot :=
  (h.find? x).bind fun id => h.slots[id.index]?

/-- The references of a node; a node that is no host has none. -/
def slotOf (h : Hosts) (x : NodeId) : Slot := (h.slot? x).getD []

/-- Every node has at most one identity, which is the place of the node, and the references have
the same places. -/
structure Aligned (h : Hosts) : Prop where
  once : (h.ids.map Prod.fst).Nodup
  named : ∀ x id, h.find? x = some id ↔ h.nodes[id.index]? = some x
  length : h.nodes.length = h.slots.length

theorem aligned_empty : Aligned {} where
  once := List.nodup_nil
  named _ _ := by simp [find?]
  length := rfl

theorem slot?_eq (found : h.find? x = some id) : h.slot? x = h.slots[id.index]? := by
  rw [slot?, found, Option.bind_some]

theorem find?_of_slot? (there : h.slot? x = some s) :
    ∃ id, h.find? x = some id ∧ h.slots[id.index]? = some s :=
  Option.bind_eq_some_iff.1 there

namespace Aligned

theorem index_lt (a : h.Aligned) (found : h.find? x = some id) : id.index < h.nodes.length :=
  (List.getElem?_eq_some_iff.1 ((a.named x id).1 found)).1

/-- An identity belongs to one node only. -/
theorem inj (a : h.Aligned) (found : h.find? x = some id) (found' : h.find? y = some id) : x = y :=
  Option.some.inj (((a.named x id).1 found).symm.trans ((a.named y id).1 found'))

theorem slot?_of_find? (a : h.Aligned) (found : h.find? x = some id) :
    ∃ s, h.slot? x = some s ∧ h.slots[id.index]? = some s := by
  have inside : id.index < h.slots.length := a.length ▸ a.index_lt found
  exact ⟨_, (slot?_eq found).trans (List.getElem?_eq_getElem inside),
    List.getElem?_eq_getElem inside⟩

theorem slot?_eq_none (a : h.Aligned) : h.slot? x = none ↔ h.find? x = none := by
  cases found : h.find? x with
  | none => simp [slot?, found]
  | some id =>
      obtain ⟨s, there, -⟩ := a.slot?_of_find? found
      simp [there]

theorem mem_nodes (a : h.Aligned) : x ∈ h.nodes ↔ h.find? x ≠ none := by
  rw [List.mem_iff_getElem?, Option.ne_none_iff_exists']
  exact ⟨fun ⟨i, there⟩ => ⟨⟨i⟩, (a.named x ⟨i⟩).2 there⟩,
    fun ⟨id, found⟩ => ⟨id.index, (a.named x id).1 found⟩⟩

/-- No node has two places. -/
theorem nodup_nodes (a : h.Aligned) : h.nodes.Nodup := by
  rw [List.Nodup, List.pairwise_iff_getElem]
  intro i j inside inside' lt same
  have found := (a.named _ ⟨i⟩).2 (List.getElem?_eq_getElem inside)
  have found' := (a.named _ ⟨j⟩).2 (List.getElem?_eq_getElem inside')
  rw [← same, found] at found'
  exact Nat.ne_of_lt lt (congrArg HostId.index (Option.some.inj found'))

/-- The places are those of the nodes that have an identity. -/
theorem perm_nodes (a : h.Aligned) : h.nodes.Perm (h.ids.map Prod.fst) := by
  refine (List.perm_ext_iff_of_nodup a.nodup_nodes a.once).2 fun x => ?_
  rw [a.mem_nodes, find?, ne_eq, lookup_eq_none, Decidable.not_not]

end Aligned

/-! ## New hosts -/

theorem hostFor_of_find? (found : h.find? x = some id) : h.hostFor x = (id, h) := by
  rw [hostFor, found]

theorem hostFor_of_none (none_there : h.find? x = none) :
    h.hostFor x = (⟨h.nodes.length⟩, {
      ids := assign x ⟨h.nodes.length⟩ h.ids, nodes := h.nodes ++ [x], slots := h.slots ++ [[]] }) := by
  rw [hostFor, none_there]

/-- The identity of a node is the one that is given for it, and no other node gets any. -/
theorem find?_hostFor (h : Hosts) (x y : NodeId) :
    (h.hostFor x).2.find? y = if y = x then some (h.hostFor x).1 else h.find? y := by
  cases found : h.find? x with
  | some id =>
      rw [hostFor_of_find? found]
      by_cases here : y = x
      · rw [if_pos here, here, found]
      · rw [if_neg here]
  | none =>
      rw [hostFor_of_none found]
      exact lookup_assign ..

theorem find?_hostFor_self (h : Hosts) (x : NodeId) :
    (h.hostFor x).2.find? x = some (h.hostFor x).1 := by
  rw [find?_hostFor, if_pos rfl]

theorem getElem?_snoc {α : Type} (l : List α) (a : α) (i : Nat) :
    (l ++ [a])[i]? = if i = l.length then some a else l[i]? := by
  by_cases last : i = l.length
  · rw [if_pos last, last, List.getElem?_concat_length]
  · rw [if_neg last]
    rcases Nat.lt_or_gt_of_ne last with old | beyond
    · exact List.getElem?_append_left old
    · rw [List.getElem?_eq_none (Nat.le_of_lt beyond),
        List.getElem?_eq_none (by rw [List.length_append]; exact beyond)]

theorem Aligned.hostFor (a : h.Aligned) (x : NodeId) : (h.hostFor x).2.Aligned := by
  cases found : h.find? x with
  | some id =>
      rw [hostFor_of_find? found]
      exact a
  | none =>
      refine ⟨?_, fun y id => ?_, ?_⟩
      · rw [hostFor_of_none found]
        exact nodup_assign a.once x _
      · rw [find?_hostFor, hostFor_of_none found, getElem?_snoc]
        by_cases last : id.index = h.nodes.length
        · have same : id = ⟨h.nodes.length⟩ := HostId.ext last
          have out : h.find? y ≠ some ⟨h.nodes.length⟩ := fun there =>
            Nat.lt_irrefl _ (a.index_lt there)
          rw [if_pos last, same]
          by_cases here : y = x
          · simp [here]
          · simp [here, out, Ne.symm here]
        · have apart : (⟨h.nodes.length⟩ : HostId) ≠ id := fun same => last (same ▸ rfl)
          rw [if_neg last, ← a.named]
          by_cases here : y = x
          · simp [here, found, apart]
          · rw [if_neg here]
      · rw [hostFor_of_none found, List.length_append, List.length_append, a.length]
        rfl

/-- A node that becomes a host has no references at first, and all others keep theirs. -/
theorem Aligned.slot?_hostFor (a : h.Aligned) (x y : NodeId) :
    (h.hostFor x).2.slot? y = if y = x then some (h.slotOf x) else h.slot? y := by
  cases found : h.find? x with
  | some id =>
      obtain ⟨s, there, -⟩ := a.slot?_of_find? found
      rw [hostFor_of_find? found]
      by_cases here : y = x
      · rw [if_pos here, here, slotOf, there, Option.getD_some]
      · rw [if_neg here]
  | none =>
      have table := find?_hostFor h x y
      by_cases here : y = x
      · rw [if_pos here] at table ⊢
        rw [slot?_eq table, hostFor_of_none found, slotOf, a.slot?_eq_none.2 found, a.length,
          List.getElem?_concat_length, Option.getD_none]
      · rw [if_neg here] at table ⊢
        unfold slot?
        rw [table]
        cases other : h.find? y with
        | none => rfl
        | some id =>
            rw [Option.bind_some, Option.bind_some, hostFor_of_none found,
              List.getElem?_append_left (a.length ▸ a.index_lt other)]

/-! ## Adding references -/

theorem Aligned.push (a : h.Aligned) (id : HostId) (r : Reference CompiledTemplate) :
    (h.push id r).Aligned where
  once := a.once
  named := a.named
  length := a.length.trans (List.length_modify ..).symm

theorem slot?_push (h : Hosts) (id : HostId) (r : Reference CompiledTemplate) (y : NodeId) :
    (h.push id r).slot? y =
      if h.find? y = some id then (h.slot? y).map (· ++ [r]) else h.slot? y := by
  cases found : h.find? y with
  | none =>
      have out : (h.push id r).find? y = none := found
      simp [slot?, found, out]
  | some id' =>
      have found' : (h.push id r).find? y = some id' := found
      rw [slot?_eq found, slot?_eq found', Hosts.push, List.getElem?_modify]
      by_cases same : id' = id
      · simp [same]
      · have apart : id.index ≠ id'.index := fun same' => same (HostId.ext same').symm
        simp [same, apart]

/-- The table with one more reference of a node. -/
def add (h : Hosts) (x : NodeId) (r : Reference CompiledTemplate) : Hosts :=
  (h.hostFor x).2.push (h.hostFor x).1 r

theorem Aligned.add (a : h.Aligned) (x : NodeId) (r : Reference CompiledTemplate) :
    (h.add x r).Aligned :=
  (a.hostFor x).push _ r

theorem Aligned.slot?_add (a : h.Aligned) (x : NodeId) (r : Reference CompiledTemplate) :
    (h.add x r).slot? x = some (h.slotOf x ++ [r]) := by
  rw [Hosts.add, slot?_push, if_pos (find?_hostFor_self h x), a.slot?_hostFor, if_pos rfl, Option.map_some]

theorem Aligned.slot?_add_of_ne (a : h.Aligned) (r : Reference CompiledTemplate) (other : y ≠ x) :
    (h.add x r).slot? y = h.slot? y := by
  have apart : (h.hostFor x).2.find? y ≠ some (h.hostFor x).1 := fun found =>
    other ((a.hostFor x).inj found (find?_hostFor_self h x))
  rw [Hosts.add, slot?_push, if_neg apart, a.slot?_hostFor, if_neg other]

/-! ## Another node for a host -/

theorem rekey?_eq_none : h.rekey? x y = none ↔ h.find? x = none :=
  Option.map_eq_none_iff

theorem rekey?_of_find? (found : h.find? x = some id) :
    h.rekey? x y = some (id, h.rekeyed x y id) := by
  rw [rekey?, found, Option.map_some]

theorem rekey?_eq_some {h' : Hosts} (moved : h.rekey? x y = some (id, h')) :
    h.find? x = some id ∧ h' = h.rekeyed x y id := by
  obtain ⟨i, found, same⟩ := Option.map_eq_some_iff.1 moved
  obtain ⟨rfl, rfl⟩ := Prod.mk.inj same
  exact ⟨found, rfl⟩

theorem find?_rekeyed (h : Hosts) (x y z : NodeId) (id : HostId) :
    (h.rekeyed x y id).find? z =
      if z = y then some id else if z = x then none else h.find? z := by
  rw [find?, rekeyed, lookup_assign, lookup_withdraw]
  rfl

/-- The new node, which must be no host, is put where the old one was. -/
theorem Aligned.rekeyed (a : h.Aligned) (found : h.find? x = some id) (new : h.find? y = none) :
    (h.rekeyed x y id).Aligned where
  once := nodup_assign (nodup_withdraw a.once x) y id
  length := (List.length_set ..).trans a.length
  named z i := by
    rw [find?_rekeyed, Hosts.rekeyed, List.getElem?_set]
    by_cases own : id = i
    · subst own
      rw [if_pos rfl, if_pos (a.index_lt found)]
      by_cases here : z = y
      · simp [here]
      · by_cases gone : z = x
        · have apart : x ≠ y := gone ▸ here
          simp [gone, apart, Ne.symm apart]
        · have out : h.find? z ≠ some id := fun found' => gone (a.inj found' found)
          simp [here, gone, out, Ne.symm here]
    · have apart : id.index ≠ i.index := fun same => own (HostId.ext same)
      rw [if_neg apart, ← a.named]
      by_cases here : z = y
      · simp [here, new, own]
      · by_cases gone : z = x
        · have out : some id ≠ some i := fun same => own (Option.some.inj same)
          rw [if_neg here, if_pos gone, gone, found]
          simp [out]
        · rw [if_neg here, if_neg gone]

theorem slot?_rekeyed (found : h.find? x = some id) (z : NodeId) :
    (h.rekeyed x y id).slot? z =
      if z = y then h.slot? x else if z = x then none else h.slot? z := by
  have table := find?_rekeyed h x y z id
  by_cases here : z = y
  · rw [if_pos here] at table ⊢
    rw [slot?_eq table, slot?_eq found]
    rfl
  · rw [if_neg here] at table ⊢
    by_cases gone : z = x
    · rw [if_pos gone] at table ⊢
      rw [slot?, table, Option.bind_none]
    · rw [if_neg gone] at table ⊢
      rw [slot?, table]
      rfl

/-! ## Taking references -/

theorem Aligned.emptied (a : h.Aligned) (id : HostId) : (h.emptied id).Aligned where
  once := a.once
  named := a.named
  length := a.length.trans (List.length_set ..).symm

theorem takeSlot?_of_find? (found : h.find? x = some id) :
    h.takeSlot? x = some (h.slotOf x, h.emptied id) := by
  rw [takeSlot?, found, slotOf, slot?_eq found]
  rfl

theorem takeSlot?_eq_some {h' : Hosts} (taken : h.takeSlot? x = some (s, h')) :
    ∃ id, h.find? x = some id ∧ h' = h.emptied id := by
  obtain ⟨id, found, same⟩ := Option.map_eq_some_iff.1 taken
  exact ⟨id, found, (Prod.mk.inj same).2.symm⟩

theorem takeSlot?_eq_none : h.takeSlot? x = none ↔ h.find? x = none :=
  Option.map_eq_none_iff

/-- Only the node itself loses its references. -/
theorem Aligned.slot?_emptied_of_ne (a : h.Aligned) (found : h.find? x = some id) (other : y ≠ x) :
    (h.emptied id).slot? y = h.slot? y := by
  cases found' : h.find? y with
  | none =>
      have out : (h.emptied id).find? y = none := found'
      rw [slot?, slot?, out, found']
      rfl
  | some id' =>
      have there : (h.emptied id).find? y = some id' := found'
      have apart : id.index ≠ id'.index := fun same =>
        other (a.inj found' (HostId.ext same ▸ found))
      rw [slot?_eq there, slot?_eq found', Hosts.emptied, List.getElem?_set_ne apart]

end Hosts

end Stencil
