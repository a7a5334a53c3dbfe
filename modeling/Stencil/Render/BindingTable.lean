import Stencil.Compiled.Basic
import Stencil.Render.Handler

/-! # Tables of bindings

The bindings of a live tree under their keys. The keys stand in the order in which each came
first, and the bindings of a key in the order in which they came.
-/

namespace Stencil

/-- A binding at its place in a live tree. -/
structure BoundBinding where
  binding : Binding
  target : Target
  handler : Handler
  deriving Inhabited

/-- Bindings under their keys: no key is there twice, and none without a binding. -/
structure BindingTable where
  entries : List (String × List BoundBinding)
  distinct : (entries.map Prod.fst).Nodup
  filed : ∀ entry ∈ entries, entry.2 ≠ [] ∧ ∀ b ∈ entry.2, b.binding.key = entry.1

namespace BindingTable

def empty : BindingTable where
  entries := []
  distinct := List.nodup_nil
  filed := List.forall_mem_nil _

instance : Inhabited BindingTable := ⟨empty⟩

/-- Puts a binding behind those of its key. A new key comes behind the other ones. -/
def file (b : BoundBinding) :
    List (String × List BoundBinding) → List (String × List BoundBinding)
  | [] => [(b.binding.key, [b])]
  | (key, bound) :: more =>
      if key = b.binding.key then (key, bound ++ [b]) :: more else (key, bound) :: file b more

theorem keys_file (b : BoundBinding) (entries : List (String × List BoundBinding)) :
    (file b entries).map Prod.fst =
      if b.binding.key ∈ entries.map Prod.fst then entries.map Prod.fst
      else entries.map Prod.fst ++ [b.binding.key] := by
  induction entries with
  | nil => rfl
  | cons entry more ih =>
      obtain ⟨key, bound⟩ := entry
      rw [file]
      by_cases same : key = b.binding.key
      · simp [same]
      · rw [if_neg same, List.map_cons, ih]
        by_cases there : b.binding.key ∈ more.map Prod.fst
        · simp [there]
        · rw [if_neg there, if_neg (by simpa [Ne.symm same] using there)]
          rfl

theorem mem_file {b : BoundBinding} {entries : List (String × List BoundBinding)}
    {entry : String × List BoundBinding} (mem : entry ∈ file b entries) :
    entry ∈ entries ∨ entry = (b.binding.key, [b]) ∨
      ∃ bound, (b.binding.key, bound) ∈ entries ∧ entry = (b.binding.key, bound ++ [b]) := by
  induction entries with
  | nil => exact .inr (.inl (List.mem_singleton.1 mem))
  | cons first more ih =>
      obtain ⟨key, bound⟩ := first
      rw [file] at mem
      split at mem
      · rename_i same
        subst same
        rcases List.mem_cons.1 mem with rfl | later
        · exact .inr (.inr ⟨bound, List.mem_cons_self .., rfl⟩)
        · exact .inl (List.mem_cons_of_mem _ later)
      · rcases List.mem_cons.1 mem with rfl | later
        · exact .inl (List.mem_cons_self ..)
        · rcases ih later with old | new | ⟨bound', old, same⟩
          · exact .inl (List.mem_cons_of_mem _ old)
          · exact .inr (.inl new)
          · exact .inr (.inr ⟨bound', List.mem_cons_of_mem _ old, same⟩)

/-- The table with one more binding. -/
def push (t : BindingTable) (b : BoundBinding) : BindingTable where
  entries := file b t.entries
  distinct := by
    rw [keys_file]
    split
    · exact t.distinct
    · exact List.nodup_append.2 ⟨t.distinct, by simp, fun key mem other single =>
        fun same => ‹b.binding.key ∉ _› (List.mem_singleton.1 single ▸ same ▸ mem)⟩
  filed entry mem := by
    rcases mem_file mem with old | rfl | ⟨bound, old, rfl⟩
    · exact t.filed entry old
    · exact ⟨List.cons_ne_nil b [], List.forall_mem_singleton.2 rfl⟩
    · exact ⟨by simp, List.forall_mem_append.2 ⟨(t.filed _ old).2, List.forall_mem_singleton.2 rfl⟩⟩

/-- The keys in order. -/
def keys (t : BindingTable) : List String := t.entries.map Prod.fst

/-- The bindings of a key. -/
def get (t : BindingTable) (key : String) : List BoundBinding := (t.entries.lookup key).getD []

/-- All bindings, key by key. -/
def list (t : BindingTable) : List BoundBinding := t.entries.flatMap Prod.snd

instance : Membership BoundBinding BindingTable := ⟨fun t b => b ∈ t.list⟩

end BindingTable

end Stencil
