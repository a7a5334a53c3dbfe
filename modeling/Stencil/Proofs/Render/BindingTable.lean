import Mathlib.Data.List.Induction
import Stencil.Render.BindingTable

/-! # What a table of bindings shows

A table is known by its keys and the bindings of each. The table of a list has the keys in the
order of their first bindings, and under each key its bindings in the order of the list.
-/

namespace Stencil

theorem lookup_of_mem {α : Type} {entries : List (String × α)} {entry : String × α}
    (distinct : (entries.map Prod.fst).Nodup) (mem : entry ∈ entries) :
    entries.lookup entry.1 = some entry.2 := by
  induction entries with
  | nil => cases mem
  | cons first more ih =>
      obtain ⟨key, value⟩ := first
      obtain ⟨new, rest⟩ := List.nodup_cons.1 distinct
      rcases List.mem_cons.1 mem with rfl | mem
      · simp
      · have other : entry.1 ≠ key := by
          intro same
          exact new (List.mem_map.2 ⟨entry, mem, same⟩)
        rw [List.lookup_cons, beq_false_of_ne other]
        exact ih rest mem

namespace BindingTable

variable {t : BindingTable} {b : BoundBinding} {key : String}

/-! ## Looking up -/

theorem get_of_mem {entry : String × List BoundBinding} (mem : entry ∈ t.entries) :
    t.get entry.1 = entry.2 := by
  rw [get, lookup_of_mem t.distinct mem]
  rfl

/-- The entries are the keys with their bindings. -/
theorem entries_eq (t : BindingTable) : t.entries = t.keys.map fun key => (key, t.get key) := by
  rw [keys, List.map_map]
  refine (List.map_id _).symm.trans (List.map_congr_left fun entry mem => ?_)
  exact Prod.ext rfl (get_of_mem mem).symm

/-- Tables with the same keys and the same bindings of each are equal. -/
theorem ext_get {s : BindingTable} (keys : s.keys = t.keys) (get : ∀ key, s.get key = t.get key) :
    s = t := by
  have entries : s.entries = t.entries := by
    rw [s.entries_eq, t.entries_eq, keys]
    exact List.map_congr_left fun key _ => by rw [get]
  cases s
  cases t
  cases entries
  rfl

theorem mem_get : b ∈ t.get key ↔ b ∈ t ∧ b.binding.key = key := by
  constructor
  · intro mem
    cases found : t.entries.lookup key with
    | none => simp [get, found] at mem
    | some bound =>
        obtain ⟨front, back, entries, -⟩ := List.lookup_eq_some_iff.1 found
        have listed : (key, bound) ∈ t.entries := by simp [entries]
        rw [get, found] at mem
        exact ⟨List.mem_flatMap.2 ⟨_, listed, mem⟩, (t.filed _ listed).2 b mem⟩
  · rintro ⟨mem, rfl⟩
    obtain ⟨entry, listed, own⟩ := List.mem_flatMap.1 mem
    rwa [(t.filed _ listed).2 b own, get_of_mem listed]

theorem mem_keys : key ∈ t.keys ↔ ∃ b ∈ t, b.binding.key = key := by
  constructor
  · intro mem
    obtain ⟨entry, listed, rfl⟩ := List.mem_map.1 mem
    obtain ⟨b, own⟩ := List.exists_mem_of_ne_nil _ (t.filed _ listed).1
    exact ⟨b, List.mem_flatMap.2 ⟨_, listed, own⟩, (t.filed _ listed).2 b own⟩
  · rintro ⟨b, mem, rfl⟩
    obtain ⟨entry, listed, own⟩ := List.mem_flatMap.1 mem
    exact List.mem_map.2 ⟨entry, listed, ((t.filed _ listed).2 b own).symm⟩

theorem key_mem_keys (mem : b ∈ t) : b.binding.key ∈ t.keys := mem_keys.2 ⟨b, mem, rfl⟩

theorem not_mem_empty : b ∉ empty := List.not_mem_nil

/-- A table in which there is nothing is empty. -/
theorem eq_empty (none_there : ∀ b, b ∉ t) : t = empty := by
  have keys : t.keys = [] := List.eq_nil_iff_forall_not_mem.2 fun key mem => by
    obtain ⟨b, there, -⟩ := mem_keys.1 mem
    exact none_there b there
  obtain ⟨entries, distinct, filed⟩ := t
  obtain rfl : entries = [] := List.map_eq_nil_iff.1 keys
  rfl

/-! ## Tables of lists -/

theorem keys_push (t : BindingTable) (b : BoundBinding) :
    (t.push b).keys = if b.binding.key ∈ t.keys then t.keys else t.keys ++ [b.binding.key] :=
  keys_file b t.entries

theorem get_push (t : BindingTable) (b : BoundBinding) (key : String) :
    (t.push b).get key = t.get key ++ if b.binding.key = key then [b] else [] := by
  have filed : ∀ entries : List (String × List BoundBinding), ((file b entries).lookup key).getD [] =
      (entries.lookup key).getD [] ++ if b.binding.key = key then [b] else [] := by
    intro entries
    induction entries with
    | nil =>
        by_cases same : b.binding.key = key
        · simp [file, same]
        · simp [file, List.lookup_cons, beq_false_of_ne (Ne.symm same), same]
    | cons entry more ih =>
        obtain ⟨own, bound⟩ := entry
        rw [file]
        by_cases here : own = key
        · subst here
          by_cases same : own = b.binding.key
          · simp [same]
          · simp [same, Ne.symm same]
        · have other : (key == own) = false := beq_false_of_ne (Ne.symm here)
          by_cases same : own = b.binding.key
          · subst same
            simp [List.lookup_cons, other, here]
          · rw [if_neg same, List.lookup_cons, List.lookup_cons, other]
            exact ih
  exact filed t.entries

/-- The table of the bindings in a list. -/
def ofList (bs : List BoundBinding) : BindingTable := bs.foldl push empty

theorem ofList_concat (bs : List BoundBinding) (b : BoundBinding) :
    ofList (bs ++ [b]) = (ofList bs).push b := by
  rw [ofList, ofList, List.foldl_append, List.foldl_cons, List.foldl_nil]

/-- The keys of a list stand in the order of their first bindings. -/
theorem keys_ofList (bs : List BoundBinding) :
    (ofList bs).keys = (bs.map (·.binding.key)).eraseDups := by
  induction bs using List.reverseRecOn with
  | nil => rfl
  | append_singleton bs b ih =>
      rw [ofList_concat, keys_push, ih, List.map_append, List.eraseDups_append]
      generalize bs.map (·.binding.key) = keys
      by_cases there : b.binding.key ∈ keys
      · rw [if_pos (List.mem_eraseDups.2 there)]
        simp [List.removeAll, there]
      · rw [if_neg fun mem => there (List.mem_eraseDups.1 mem)]
        simp [List.removeAll, there, List.eraseDups_cons]

/-- Under a key are its bindings in the order of the list. -/
theorem get_ofList (bs : List BoundBinding) (key : String) :
    (ofList bs).get key = bs.filter fun b => b.binding.key == key := by
  induction bs using List.reverseRecOn with
  | nil => rfl
  | append_singleton bs b ih =>
      rw [ofList_concat, get_push, ih, List.filter_append]
      by_cases same : b.binding.key = key <;> simp [same]

/-- One more binding is listed somewhere among the other ones. -/
theorem list_push_perm (t : BindingTable) (b : BoundBinding) : (t.push b).list.Perm (b :: t.list) := by
  have filed : ∀ entries : List (String × List BoundBinding),
      ((file b entries).flatMap Prod.snd).Perm (b :: entries.flatMap Prod.snd) := by
    intro entries
    induction entries with
    | nil => exact .refl _
    | cons entry more ih =>
        obtain ⟨key, bound⟩ := entry
        rw [file]
        split
        · rw [List.flatMap_cons, List.flatMap_cons, List.append_assoc]
          exact List.perm_middle
        · rw [List.flatMap_cons, List.flatMap_cons]
          exact (ih.append_left bound).trans List.perm_middle
  exact filed t.entries

/-- The bindings of a list are listed key by key. -/
theorem list_ofList_perm (bs : List BoundBinding) : (ofList bs).list.Perm bs := by
  induction bs using List.reverseRecOn with
  | nil => exact .refl _
  | append_singleton bs b ih =>
      rw [ofList_concat]
      exact (list_push_perm _ b).trans ((ih.cons b).trans (List.perm_append_singleton b bs).symm)

theorem mem_ofList {bs : List BoundBinding} : b ∈ ofList bs ↔ b ∈ bs :=
  (list_ofList_perm bs).mem_iff

/-! ## Bindings that are changed under their keys -/

/-- The table with every binding changed in its place. -/
def map (f : BoundBinding → BoundBinding) (same : ∀ b, (f b).binding.key = b.binding.key)
    (t : BindingTable) : BindingTable where
  entries := t.entries.map fun entry => (entry.1, entry.2.map f)
  distinct := by
    rw [List.map_map]
    exact t.distinct
  filed := by
    refine List.forall_mem_map.2 fun entry mem => ⟨fun none_there => ?_, ?_⟩
    · exact (t.filed entry mem).1 (List.map_eq_nil_iff.1 none_there)
    · exact List.forall_mem_map.2 fun b own => (same b).trans ((t.filed entry mem).2 b own)

variable {f : BoundBinding → BoundBinding} {same : ∀ b, (f b).binding.key = b.binding.key}

@[simp] theorem keys_map (t : BindingTable) : (t.map f same).keys = t.keys := by
  rw [keys, map, List.map_map]
  rfl

@[simp] theorem list_map (t : BindingTable) : (t.map f same).list = t.list.map f := by
  rw [list, map, list, List.flatMap_map, List.map_flatMap]

@[simp] theorem get_map (t : BindingTable) (key : String) :
    (t.map f same).get key = (t.get key).map f := by
  have lookup : ∀ entries : List (String × List BoundBinding),
      (entries.map fun entry => (entry.1, entry.2.map f)).lookup key =
        (entries.lookup key).map (List.map f) := by
    intro entries
    induction entries with
    | nil => rfl
    | cons entry more ih =>
        rw [List.map_cons, List.lookup_cons, List.lookup_cons, ih]
        cases key == entry.1 <;> rfl
  rw [get, map, lookup, get]
  cases t.entries.lookup key <;> rfl

theorem mem_map : b ∈ t.map f same ↔ ∃ c ∈ t, f c = b := by
  show b ∈ (t.map f same).list ↔ _
  rw [list_map, List.mem_map]
  rfl

/-- Only an empty table becomes empty. -/
theorem eq_empty_of_map (keeps : ∀ b, (f b).binding.key = b.binding.key) (h : t.map f keeps = empty) :
    t = empty := by
  refine eq_empty fun b mem => ?_
  have moved : f b ∈ t.map f keeps := mem_map.2 ⟨b, mem, rfl⟩
  rw [h] at moved
  exact not_mem_empty moved

/-- Changing the bindings of a list changes them in its table. -/
theorem map_ofList (bs : List BoundBinding) : (ofList bs).map f same = ofList (bs.map f) := by
  refine ext_get ?_ fun key => ?_
  · rw [keys_map, keys_ofList, keys_ofList, List.map_map]
    simp only [Function.comp_def, same]
  · rw [get_map, get_ofList, get_ofList, List.filter_map]
    simp only [Function.comp_def, same]

end BindingTable

end Stencil
