import Stencil.Proofs.Compile.Table

/-! # The ledger of a table of hosts

A ledger is what a table of hosts has been asked and what it has answered. Which identity a node
has and which references belong to an identity can be read from the ledger alone, and the table
holds just that.
-/

namespace Stencil.Hosts

/-- What a table is asked, with its answer. -/
inductive Call where
  | hostFor (node : NodeId) (id : HostId)
  | push (id : HostId) (r : Reference CompiledTemplate)
  | rekey (old new : NodeId) (id : Option HostId)
  | take (node : NodeId) (slot : Option Slot)

/-- A table answers a call and is another one afterwards. -/
inductive Serves (h : Hosts) : Call → Hosts → Prop
  | hostFor (x : NodeId) : Serves h (.hostFor x (h.hostFor x).1) (h.hostFor x).2
  | push (id : HostId) (r : Reference CompiledTemplate) : Serves h (.push id r) (h.push id r)
  | rekey {x y : NodeId} {id : HostId} {h' : Hosts} (moved : h.rekey? x y = some (id, h')) :
      Serves h (.rekey x y (some id)) h'
  | rekeyNone {x y : NodeId} (unmoved : h.rekey? x y = none) : Serves h (.rekey x y none) h
  | take {x : NodeId} {slot : Slot} {h' : Hosts} (taken : h.takeSlot? x = some (slot, h')) :
      Serves h (.take x (some slot)) h'
  | takeNone {x : NodeId} (untaken : h.takeSlot? x = none) : Serves h (.take x none) h

/-- References are pushed to an identity that has been given, and an identity is moved to a node
that is no host. -/
def Call.Admitted (earlier : List Call) (h : Hosts) : Call → Prop
  | push id _ => ∃ x, .hostFor x id ∈ earlier
  | rekey _ new _ => h.find? new = none
  | _ => True

/-- The calls that have made a table of the empty one, the latest first. -/
inductive Ledger : List Call → Hosts → Prop
  | empty : Ledger [] {}
  | call {earlier : List Call} {h h' : Hosts} {call : Call} (past : Ledger earlier h)
      (admitted : call.Admitted earlier h) (serves : Serves h call h') :
      Ledger (call :: earlier) h'

/-! ## What a ledger says -/

/-- The identity that a node has after these calls. -/
def identity? (x : NodeId) : List Call → Option HostId
  | [] => none
  | .hostFor y id :: earlier => if x = y then some id else identity? x earlier
  | .rekey old new (some id) :: earlier =>
      if x = new then some id else if x = old then none else identity? x earlier
  | _ :: earlier => identity? x earlier

/-- The references that have been pushed for an identity and not been taken yet, in order. -/
def owed (id : HostId) : List Call → Slot
  | [] => []
  | .push i r :: earlier => if i = id then owed id earlier ++ [r] else owed id earlier
  | .take x _ :: earlier => if identity? x earlier = some id then [] else owed id earlier
  | _ :: earlier => owed id earlier

/-- The reference that a call pushes for an identity. -/
def Call.pushed? (id : HostId) : Call → Option (Reference CompiledTemplate)
  | push i r => if i = id then some r else none
  | _ => none

/-- As long as nothing is taken, whatever has been pushed is owed. -/
theorem owed_of_not_taken {calls : List Call} (kept : ∀ x slot, .take x slot ∉ calls)
    (id : HostId) : owed id calls = calls.reverse.filterMap (Call.pushed? id) := by
  induction calls with
  | nil => rfl
  | cons call earlier ih =>
      have same := ih fun x slot mem => kept x slot (List.mem_cons_of_mem _ mem)
      rw [List.reverse_cons, List.filterMap_append, ← same]
      cases call with
      | push i r =>
          by_cases own : i = id <;> simp [owed, Call.pushed?, own]
      | take x slot => exact absurd (List.mem_cons_self ..) (kept x slot)
      | hostFor x i => simp [owed, Call.pushed?]
      | rekey x y i => simp [owed, Call.pushed?]

/-! ## The table and its ledger -/

variable {h h' : Hosts} {calls : List Call} {call : Call} {x : NodeId} {id : HostId}

/-- The table fits together and holds what its ledger says. -/
structure Holds (calls : List Call) (h : Hosts) : Prop where
  aligned : h.Aligned
  identity : ∀ x, h.find? x = identity? x calls
  owed : ∀ id : HostId, (h.slots[id.index]?).getD [] = owed id calls
  given : ∀ x id, .hostFor x id ∈ calls → id.index < h.nodes.length

namespace Holds

/-- Other calls than those for an identity give none, and identities keep their places. -/
theorem given_cons (k : Holds calls h) (other : ∀ x id, .hostFor x id ≠ call)
    (same : h'.nodes.length = h.nodes.length) (x : NodeId) (id : HostId)
    (mem : .hostFor x id ∈ call :: calls) : id.index < h'.nodes.length :=
  same ▸ k.given x id ((List.mem_cons.1 mem).resolve_left (other x id))

theorem hostFor (k : Holds calls h) (x : NodeId) :
    Holds (.hostFor x (h.hostFor x).1 :: calls) (h.hostFor x).2 where
  aligned := k.aligned.hostFor x
  identity y := by rw [find?_hostFor, k.identity, identity?]
  owed id := by
    rw [show Hosts.owed id (.hostFor x (h.hostFor x).1 :: calls) = Hosts.owed id calls from rfl,
      ← k.owed id]
    cases found : h.find? x with
    | some i => rw [hostFor_of_find? found]
    | none =>
        rw [hostFor_of_none found, getElem?_snoc]
        by_cases last : id.index = h.slots.length
        · rw [if_pos last, List.getElem?_eq_none (Nat.le_of_eq last.symm)]
          rfl
        · rw [if_neg last]
  given y id mem := by
    rcases List.mem_cons.1 mem with same | mem
    · obtain ⟨rfl, rfl⟩ := Call.hostFor.inj same
      exact (k.aligned.hostFor y).index_lt (find?_hostFor_self h y)
    · refine Nat.lt_of_lt_of_le (k.given y id mem) ?_
      cases found : h.find? x with
      | some i => exact Nat.le_of_eq (by rw [hostFor_of_find? found])
      | none =>
          rw [hostFor_of_none found, List.length_append]
          exact Nat.le_add_right ..

theorem push (k : Holds calls h) (given : .hostFor x id ∈ calls)
    (r : Reference CompiledTemplate) : Holds (.push id r :: calls) (h.push id r) where
  aligned := k.aligned.push id r
  identity := k.identity
  owed i := by
    have inside : id.index < h.slots.length := k.aligned.length ▸ k.given x id given
    rw [Hosts.push, Hosts.owed, List.getElem?_modify, ← k.owed i]
    by_cases own : id = i
    · subst own
      simp [List.getElem?_eq_getElem inside]
    · have apart : id.index ≠ i.index := fun same => own (HostId.ext same)
      simp [own, apart]
  given := k.given_cons (by simp) rfl

theorem rekey {y : NodeId} (k : Holds calls h) (new : h.find? y = none)
    (moved : h.rekey? x y = some (id, h')) : Holds (.rekey x y (some id) :: calls) h' := by
  obtain ⟨found, rfl⟩ := rekey?_eq_some moved
  refine ⟨k.aligned.rekeyed found new, fun z => ?_, k.owed,
    k.given_cons (by simp) (List.length_set ..)⟩
  rw [find?_rekeyed, k.identity z, identity?]

theorem rekeyNone {y : NodeId} (k : Holds calls h) : Holds (.rekey x y none :: calls) h where
  aligned := k.aligned
  identity := k.identity
  owed := k.owed
  given := k.given_cons (by simp) rfl

theorem take {slot : Slot} (k : Holds calls h) (taken : h.takeSlot? x = some (slot, h')) :
    Holds (.take x (some slot) :: calls) h' := by
  obtain ⟨id, found, rfl⟩ := takeSlot?_eq_some taken
  refine ⟨k.aligned.emptied id, k.identity, fun i => ?_, k.given_cons (by simp) rfl⟩
  rw [Hosts.owed, ← k.identity, found, ← k.owed i, emptied, List.getElem?_set]
  by_cases own : id = i
  · subst own
    have inside : id.index < h.slots.length := k.aligned.length ▸ k.aligned.index_lt found
    simp [inside]
  · have apart : id.index ≠ i.index := fun same => own (HostId.ext same)
    simp [own, apart]

theorem takeNone (k : Holds calls h) (untaken : h.takeSlot? x = none) :
    Holds (.take x none :: calls) h where
  aligned := k.aligned
  identity := k.identity
  owed i := by
    rw [Hosts.owed, ← k.identity, takeSlot?_eq_none.1 untaken, if_neg nofun, k.owed]
  given := k.given_cons (by simp) rfl

/-- One call keeps the table and its ledger together. -/
theorem step (k : Holds calls h) (admitted : call.Admitted calls h) (serves : Serves h call h') :
    Holds (call :: calls) h' := by
  cases serves with
  | hostFor x => exact k.hostFor x
  | push id r =>
      obtain ⟨x, given⟩ := admitted
      exact k.push given r
  | rekey moved => exact k.rekey admitted moved
  | rekeyNone _ => exact k.rekeyNone
  | take taken => exact k.take taken
  | takeNone untaken => exact k.takeNone untaken

end Holds

theorem Ledger.holds (ledger : Ledger calls h) : Holds calls h := by
  induction ledger with
  | empty =>
      exact ⟨aligned_empty, fun _ => rfl, fun _ => rfl, fun _ _ mem => nomatch mem⟩
  | call _ admitted serves ih => exact ih.step admitted serves

/-- A host keeps its identity until it is moved away. -/
theorem Serves.find?_eq_some (serves : Serves h call h') (admitted : call.Admitted calls h)
    (found : h.find? x = some id) (unmoved : ∀ new answer, call ≠ .rekey x new answer) :
    h'.find? x = some id := by
  cases serves with
  | hostFor y =>
      rw [find?_hostFor]
      by_cases here : x = y
      · subst here
        rw [if_pos rfl, hostFor_of_find? found]
      · rw [if_neg here, found]
  | push i r => exact found
  | @rekey y z i _ moved =>
      obtain ⟨-, rfl⟩ := rekey?_eq_some moved
      have free : h.find? z = none := admitted
      have apart : x ≠ z := by
        intro same
        rw [← same, found] at free
        cases free
      have other : x ≠ y := fun same => unmoved z (some i) (same ▸ rfl)
      rw [find?_rekeyed, if_neg apart, if_neg other, found]
  | rekeyNone _ => exact found
  | take taken =>
      obtain ⟨j, -, rfl⟩ := takeSlot?_eq_some taken
      exact found
  | takeNone _ => exact found

theorem Ledger.find?_of_given {later earlier : List Call}
    (ledger : Ledger (later ++ .hostFor x id :: earlier) h)
    (unmoved : ∀ new answer, .rekey x new answer ∉ later) : h.find? x = some id := by
  induction later generalizing h with
  | nil =>
      have said := ledger.holds.identity x
      rwa [List.nil_append, identity?, if_pos rfl] at said
  | cons call later ih =>
      -- the ledger without its latest call is that of the table before
      rw [List.cons_append] at ledger
      cases ledger with
      | call past admitted serves =>
          have found := ih past fun new answer mem => unmoved new answer (List.mem_cons_of_mem _ mem)
          exact serves.find?_eq_some admitted found fun new answer same =>
            unmoved new answer (same ▸ List.mem_cons_self ..)

/-- After any calls, the identities of a table are those in its ledger. Different nodes have
different identities, an identity is the place of its node, and there is one place for each host,
with one slot. An identity that has been given keeps its slot, and a node that has been given one is
given the same until it is moved away. What is taken from a host are the references that are owed to
its identity, whatever nodes have had it, and if none have been taken before, these are all that
have been pushed for it, in order. -/
theorem ledger_holds {calls : List Call} {h : Hosts} (ledger : Ledger calls h) :
    (∀ x, h.find? x = identity? x calls) ∧
    (∀ x y id, h.find? x = some id → h.find? y = some id → x = y) ∧
    (∀ x id, h.find? x = some id ↔ h.nodes[id.index]? = some x) ∧
    h.nodes.length = h.slots.length ∧ h.nodes.Nodup ∧ h.nodes.Perm (h.ids.map Prod.fst) ∧
    (∀ x id, .hostFor x id ∈ calls → id.index < h.slots.length) ∧
    (∀ later earlier x id, calls = later ++ .hostFor x id :: earlier →
      (∀ new answer, .rekey x new answer ∉ later) → h.hostFor x = (id, h)) ∧
    (∀ x, h.takeSlot? x = (h.find? x).map fun id => (owed id calls, h.emptied id)) ∧
    ((∀ x slot, .take x slot ∉ calls) →
      ∀ id, owed id calls = calls.reverse.filterMap (Call.pushed? id)) := by
  have holds := ledger.holds
  refine ⟨holds.identity, fun x y id found found' => holds.aligned.inj found found',
    holds.aligned.named, holds.aligned.length, holds.aligned.nodup_nodes, holds.aligned.perm_nodes,
    fun x id mem => holds.aligned.length ▸ holds.given x id mem,
    fun later earlier x id same unmoved => ?_, fun x => ?_, owed_of_not_taken⟩
  · subst same
    exact hostFor_of_find? (ledger.find?_of_given unmoved)
  · simp only [takeSlot?, holds.owed]

/-- An identity that is moved away from the first node, which becomes a host again, and comes back
to it when that host has been moved away as well. -/
theorem ledger_holds_returned :
    let a : Reference CompiledTemplate := .binding { kind := .escaped, key := "a" }
    let b : Reference CompiledTemplate := .binding { kind := .escaped, key := "b" }
    let c : Reference CompiledTemplate := .binding { kind := .escaped, key := "c" }
    let calls : List Call := [.push ⟨0⟩ c, .rekey ⟨2⟩ ⟨1⟩ (some ⟨0⟩), .rekey ⟨1⟩ ⟨3⟩ (some ⟨1⟩),
      .push ⟨1⟩ b, .hostFor ⟨1⟩ ⟨1⟩, .rekey ⟨1⟩ ⟨2⟩ (some ⟨0⟩), .push ⟨0⟩ a, .hostFor ⟨1⟩ ⟨0⟩]
    let h : Hosts := {
      ids := [(⟨1⟩, ⟨0⟩), (⟨3⟩, ⟨1⟩)], nodes := [⟨1⟩, ⟨3⟩], slots := [[a, c], [b]] }
    Ledger calls h ∧ h.takeSlot? ⟨1⟩ = some ([a, c], h.emptied ⟨0⟩) ∧
      h.takeSlot? ⟨3⟩ = some ([b], h.emptied ⟨1⟩) := by
  intro a b c calls h
  have ledger : Ledger calls h :=
    .call (.call (.call (.call (.call (.call (.call (.call .empty trivial (.hostFor ⟨1⟩))
      ⟨⟨1⟩, by simp⟩ (.push ⟨0⟩ a)) rfl (.rekey rfl)) trivial (.hostFor ⟨1⟩)) ⟨⟨1⟩, by simp⟩
      (.push ⟨1⟩ b)) rfl (.rekey rfl)) rfl (.rekey rfl)) ⟨⟨1⟩, by simp⟩ (.push ⟨0⟩ c)
  obtain ⟨-, -, -, -, -, -, -, -, taken, -⟩ := ledger_holds ledger
  exact ⟨ledger, taken ⟨1⟩, taken ⟨3⟩⟩

end Stencil.Hosts
