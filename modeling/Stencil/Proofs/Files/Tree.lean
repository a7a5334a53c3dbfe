import Stencil.Files.Tree

/-! # What writing changes

A new directory changes no file, and a written file is the only one that changes. The
directories of a tree stay, so a path that led somewhere before leads there afterwards.
-/

namespace Stencil.FileTree

/-! ## What is seen -/

/-- The content of a file; a directory has none. -/
def content? : FileTree → Option ByteArray
  | file content => some content
  | directory _ => none

/-- What is seen at the end of a chain of names: nothing, a directory, or a content. -/
def seen (t : FileTree) (names : List String) : Option (Option ByteArray) :=
  (t.find? names).map content?

/-- The files of two trees are at the same places and have the same contents. -/
def SameFiles (s t : FileTree) : Prop :=
  ∀ names content, s.seen names = some (some content) ↔ t.seen names = some (some content)

theorem SameFiles.refl (t : FileTree) : SameFiles t t := fun _ _ => Iff.rfl

theorem SameFiles.trans {r s t : FileTree} (h : SameFiles r s) (k : SameFiles s t) :
    SameFiles r t := fun names content => (h names content).trans (k names content)

/-- Whatever is in the first tree is in the second, directories as such. -/
structure Extends (s t : FileTree) : Prop where
  directory : ∀ names, s.seen names = some none → t.seen names = some none
  anything : ∀ names, (s.seen names).isSome → (t.seen names).isSome

theorem find?_append (names more : List String) : ∀ t : FileTree,
    t.find? (names ++ more) = (t.find? names).bind fun below => below.find? more := by
  induction names with
  | nil => exact fun _ => by simp [find?]
  | cons name names ih =>
      intro t
      cases t with
      | file content => simp [find?]
      | directory entries =>
          rw [List.cons_append, find?, find?]
          cases entries.lookup name with
          | none => rfl
          | some below => exact ih below

theorem seen_append {t below : FileTree} {names : List String} (h : t.find? names = some below)
    (more : List String) : t.seen (names ++ more) = below.seen more := by
  rw [seen, find?_append, h]
  rfl

theorem seen_eq_directory {t : FileTree} {names : List String} :
    t.seen names = some none ↔ ∃ entries, t.find? names = some (directory entries) := by
  unfold seen
  cases t.find? names with
  | none => simp
  | some below => cases below <;> simp [content?]

theorem seen_entry {t : FileTree} {names : List String} {entries : List (String × FileTree)}
    (h : t.find? names = some (directory entries)) (name : String) :
    t.seen (names ++ [name]) = (entries.lookup name).map content? := by
  rw [seen_append h]
  cases same : entries.lookup name with
  | none => simp [seen, find?, same]
  | some below => simp [seen, find?, same]

/-! ## Putting -/

theorem lookup_putEntry (name other : String) (f : Option FileTree → FileTree)
    (entries : List (String × FileTree)) : (putEntry name f entries).lookup other =
      if other = name then some (f (entries.lookup name)) else entries.lookup other := by
  induction entries with
  | nil =>
      by_cases same : other = name
      · simp [putEntry, same]
      · simp [putEntry, List.lookup_cons, same, beq_eq_false_iff_ne.2 same]
  | cons entry entries ih =>
      obtain ⟨first, t⟩ := entry
      by_cases here : first = name
      · subst here
        by_cases same : other = first
        · simp [putEntry, same]
        · simp [putEntry, List.lookup_cons, same, beq_eq_false_iff_ne.2 same]
      · have other' : (name == first) = false := beq_eq_false_iff_ne.2 (Ne.symm here)
        rw [putEntry, if_neg here, List.lookup_cons, List.lookup_cons, List.lookup_cons, ih, other']
        by_cases same : other = first
        · subst same
          simp [here]
        · simp [beq_eq_false_iff_ne.2 same]

theorem seen_directory (entries : List (String × FileTree)) (name : String) (names : List String) :
    (directory entries).seen (name :: names) =
      (entries.lookup name).bind fun below => below.seen names := by
  cases same : entries.lookup name <;> simp [seen, find?, same]

variable {t : FileTree} {entries : List (String × FileTree)} {parent : List String}

/-- What is put somewhere is there. -/
theorem seen_put_inside (value : FileTree) (last : String) (more : List String)
    (h : t.find? parent = some (directory entries)) :
    (put value (parent ++ [last]) t).seen (parent ++ last :: more) = value.seen more := by
  induction parent generalizing t with
  | nil =>
      cases h
      simp [put, seen_directory, lookup_putEntry]
  | cons name parent ih =>
      cases t with
      | file content => cases h
      | directory es =>
          obtain ⟨below, same, further⟩ := Option.bind_eq_some_iff.1 h
          simpa [put, seen_directory, lookup_putEntry, same] using ih further

/-- Elsewhere the same is seen as before. -/
theorem seen_put_beside (value : FileTree) {last : String} {names : List String}
    (h : t.find? parent = some (directory entries)) (apart : ¬parent ++ [last] <+: names) :
    (put value (parent ++ [last]) t).seen names = t.seen names := by
  induction parent generalizing t names with
  | nil =>
      cases h
      cases names with
      | nil => rfl
      | cons name names =>
          have other : name ≠ last := by
            rintro rfl
            exact apart ⟨names, rfl⟩
          simp [put, seen_directory, lookup_putEntry, other]
  | cons first parent ih =>
      cases t with
      | file content => cases h
      | directory es =>
          obtain ⟨below, same, further⟩ := Option.bind_eq_some_iff.1 h
          cases names with
          | nil => rfl
          | cons name names =>
              by_cases here : name = first
              · subst here
                have inside : ¬parent ++ [last] <+: names := fun ⟨rest, whole⟩ =>
                  apart ⟨rest, by rw [← whole]; rfl⟩
                simpa [put, seen_directory, lookup_putEntry, same] using ih further inside
              · simp [put, seen_directory, lookup_putEntry, here]

section

variable {last : String} (h : t.find? parent = some (directory entries))
  (free : (entries.lookup last).any isDirectory = false)

include h free

/-- Below a place at which there is no directory there is nothing. -/
theorem seen_below_free (name : String) (more : List String) :
    t.seen (parent ++ last :: name :: more) = none := by
  rw [seen_append h, seen_directory]
  cases same : entries.lookup last with
  | none => rfl
  | some old =>
      rw [same] at free
      cases old with
      | file _ => rfl
      | directory _ => cases free

/-- A file that is put where there is no directory changes no other file. -/
theorem seen_put_elsewhere (content : ByteArray) {names : List String}
    (elsewhere : names ≠ parent ++ [last]) :
    (put (file content) (parent ++ [last]) t).seen names = t.seen names := by
  by_cases inside : parent ++ [last] <+: names
  · obtain ⟨more, rfl⟩ := inside
    cases more with
    | nil => exact (elsewhere (List.append_nil _)).elim
    | cons name more =>
        rw [List.append_assoc, List.singleton_append, seen_put_inside _ _ _ h,
          seen_below_free h free]
        rfl
  · rw [seen_put_beside _ h inside]

/-- A tree is extended by a file that is put where there is no directory. -/
theorem extends_put (content : ByteArray) :
    Extends t (put (file content) (parent ++ [last]) t) := by
  have put := seen_put_inside (file content) last [] h
  constructor
  · intro names before
    by_cases here : names = parent ++ [last]
    · rw [here, seen_entry h] at before
      cases same : entries.lookup last with
      | none => simp [same] at before
      | some old =>
          rw [same] at before free
          cases old with
          | file _ => cases before
          | directory _ => cases free
    · rwa [seen_put_elsewhere h free content here]
  · intro names before
    by_cases here : names = parent ++ [last]
    · rw [here, put]
      rfl
    · rwa [seen_put_elsewhere h free content here]

end

/-! ## Following -/

theorem follow_append (place segments more : List String) :
    t.follow place (segments ++ more) = (t.follow place segments).bind (t.follow · more) := by
  induction segments generalizing place with
  | nil => rfl
  | cons segment segments ih =>
      rw [List.cons_append, follow, follow]
      split
      · rfl
      · rfl
      · split
        · exact ih place
        · split
          · split
            · rfl
            · exact ih _
          · split
            · exact ih _
            · rfl

theorem isDots_eq_false {segment : String} (h : isDots segment = false) :
    segment ≠ "." ∧ segment ≠ ".." := by
  simpa [isDots] using h

/-- A segment that names an entry leads to it. -/
theorem follow_entry {place : List String} {name : String} (some_name : name ≠ "")
    (notDots : isDots name = false) (above : t.seen place = some none)
    (below : (t.seen (place ++ [name])).isSome) :
    t.follow place [name] = .ok (place ++ [name]) := by
  obtain ⟨es, here⟩ := seen_eq_directory.1 above
  obtain ⟨notHere, notUp⟩ := isDots_eq_false notDots
  rw [seen_entry here, Option.isSome_map] at below
  simp [follow, here, some_name, notHere, notUp, below]

/-- In a larger tree a path leads to the same place. -/
theorem Extends.follow {s t : FileTree} (h : Extends s t) {segments place end' : List String}
    (found : s.follow place segments = .ok end') : t.follow place segments = .ok end' := by
  induction segments generalizing place with
  | nil => exact found
  | cons segment segments ih =>
      rw [FileTree.follow] at found
      split at found
      · cases found
      · cases found
      · rename_i entries here
        obtain ⟨entries', here'⟩ := seen_eq_directory.1
          (h.directory place (seen_eq_directory.2 ⟨entries, here⟩))
        rw [FileTree.follow, here']
        dsimp only
        split at found
        · rw [if_pos ‹_›]
          exact ih found
        · rw [if_neg ‹_›]
          split at found
          · rw [if_pos ‹_›]
            split at found
            · cases found
            · rw [if_neg ‹_›]
              exact ih found
          · rw [if_neg ‹_›]
            split at found
            · rename_i present
              have kept := h.anything (place ++ [segment])
              rw [seen_entry here, seen_entry here', Option.isSome_map, Option.isSome_map] at kept
              rw [if_pos (kept present)]
              exact ih found
            · cases found

/-! ## Writing -/

variable {p : Path} {t' : FileTree}

/-- A place for a new entry is in a directory, to which the segments before the last lead. -/
theorem slot_ok {s : Slot} (h : t.slot p = .ok s) :
    ¬(p.text = "" ∨ p.isAbsolute) ∧ t.find? s.parent = some (directory s.entries) ∧
      (s.slashed = false → s.last ≠ "" ∧ ∃ before, p.segments = before ++ [s.last] ∧
        t.follow [] before = .ok s.parent) := by
  unfold slot at h
  split at h
  · cases h
  rename_i somewhere
  cases followed : t.follow [] (p.segments.reverse.dropWhile (· == "")).reverse.dropLast with
  | error e =>
      dsimp only at h
      rw [followed] at h
      cases h
  | ok parent =>
      dsimp only at h
      rw [followed] at h
      dsimp only [bind, Except.bind] at h
      split at h
      · rename_i entries here
        cases h
        refine ⟨somewhere, here, fun notSlashed => ?_⟩
        -- Nothing has been dropped, so the last segment is not empty.
        have whole : p.segments.reverse.dropWhile (· == "") = p.segments.reverse := by
          refine (List.dropWhile_suffix (· == "")).eq_of_length_le ?_
          simpa using notSlashed
        rw [whole, List.reverse_reverse] at followed ⊢
        cases same : p.segments.reverse with
        | nil => simp [Path.segments, Text.splitOn_ne_nil] at same
        | cons last before =>
            rw [same] at whole
            have some_last : last ≠ "" := by
              rintro rfl
              have shorter := congrArg List.length whole
              have bound := (List.dropWhile_suffix (· == "") (l := before)).length_le
              simp at shorter
              omega
            have segments := List.reverse_eq_iff.1 same
            rw [List.reverse_cons] at segments
            simp only [segments, List.dropLast_concat, List.getLast?_concat, Option.getD_some]
              at followed ⊢
            exact ⟨some_last, before.reverse, rfl, followed⟩
      · cases h
      · cases h

theorem withDirectory_eq {s : Slot} (h : t.slot p = .ok s) : t.withDirectory p =
    if isDots s.last || (s.entries.lookup s.last).isSome then .error .alreadyExists
    else .ok (put (directory []) (s.parent ++ [s.last]) t) := by
  rw [withDirectory, h]
  rfl

theorem withFile_eq {s : Slot} (content : ByteArray) (h : t.slot p = .ok s) :
    t.withFile p content =
      if s.slashed || isDots s.last || ((s.entries.lookup s.last).any isDirectory) then
        .error .isDirectory
      else .ok (put (file content) (s.parent ++ [s.last]) t) := by
  rw [withFile, h]
  dsimp only [bind, Except.bind]
  cases s.slashed || isDots s.last with
  | true => rfl
  | false =>
      cases s.entries.lookup s.last with
      | none => rfl
      | some old => cases old <;> rfl

/-- A new directory is a change that leaves all files. -/
theorem sameFiles_withDirectory (h : t.withDirectory p = .ok t') : SameFiles t t' := by
  cases place : t.slot p with
  | error e =>
      rw [withDirectory, place] at h
      cases h
  | ok s =>
      obtain ⟨-, here, -⟩ := slot_ok place
      rw [withDirectory_eq place] at h
      split at h
      · cases h
      · rename_i free
        cases h
        have new : s.entries.lookup s.last = none := by
          simp only [Bool.or_eq_true, not_or, Option.not_isSome_iff_eq_none] at free
          exact free.2
        intro names content
        by_cases inside : s.parent ++ [s.last] <+: names
        · obtain ⟨more, rfl⟩ := inside
          rw [List.append_assoc, List.singleton_append, seen_put_inside _ _ _ here,
            seen_append here, seen_directory, new]
          cases more <;> simp [seen, find?, content?]
        · rw [seen_put_beside _ here inside]

/-- The second tree has a file of this content under the path, and apart from it the files
of the first. -/
def Stores (t : FileTree) (p : Path) (content : ByteArray) (t' : FileTree) : Prop :=
  ∃ place, t'.locate p = .ok place ∧ t'.seen place = some (some content) ∧
    ∀ names, names ≠ place → ∀ other,
      t.seen names = some (some other) ↔ t'.seen names = some (some other)

theorem SameFiles.stores {r : FileTree} {content : ByteArray} (h : SameFiles r t)
    (k : Stores t p content t') : Stores r p content t' := by
  obtain ⟨place, located, written, others⟩ := k
  exact ⟨place, located, written, fun names elsewhere other =>
    (h names other).trans (others names elsewhere other)⟩

/-- What is stored is read back. -/
theorem Stores.read {content : ByteArray} (h : Stores t p content t') :
    t'.read p = .ok content := by
  obtain ⟨place, located, written, -⟩ := h
  obtain ⟨below, here, same⟩ := Option.map_eq_some_iff.1 written
  cases below with
  | directory es => cases same
  | file other =>
      cases same
      simp [FileTree.read, get, located, here, bind, Except.bind, pure, Except.pure]

/-- A written file is found under its path, and no other has changed. -/
theorem stores_withFile {content : ByteArray} (h : t.withFile p content = .ok t') :
    Stores t p content t' := by
  cases place : t.slot p with
  | error e =>
      rw [withFile, place] at h
      cases h
  | ok s =>
      obtain ⟨somewhere, here, last⟩ := slot_ok place
      rw [withFile_eq content place] at h
      split at h
      · cases h
      rename_i free
      cases h
      simp only [Bool.or_eq_true, not_or, Bool.not_eq_true] at free
      obtain ⟨⟨notSlashed, notDots⟩, notDirectory⟩ := free
      obtain ⟨some_last, before, segments, followed⟩ := last notSlashed
      have grown := extends_put here notDirectory content
      have put := seen_put_inside (file content) s.last [] here
      have above := grown.directory _ (seen_eq_directory.2 ⟨_, here⟩)
      have located := follow_entry some_last notDots above (by rw [put]; rfl)
      refine ⟨s.parent ++ [s.last], ?_, put, fun names elsewhere other => ?_⟩
      · rw [locate, if_neg somewhere, segments, follow_append, grown.follow followed]
        exact located
      · rw [seen_put_elsewhere here notDirectory content elsewhere]

/-! ## Storing -/

theorem update_run (change : FileTree → Except FileError FileTree) (t : FileTree) :
    (update change).run t = match change t with
      | .ok t' => (.ok (), t')
      | .error e => (.error e, t) := by
  change (match change t with | .ok _ => _ | .error _ => _ : StateM FileTree _).run t = _
  cases change t <;> rfl

/-- A computation that changes no file, however it ends. -/
def Sparing {α : Type} (body : StateM FileTree α) : Prop :=
  ∀ t, SameFiles t (body.run t).2

namespace Sparing

variable {α β : Type}

theorem pure (a : α) : Sparing (pure a : StateM FileTree α) := fun t => .refl t

theorem bind {body : StateM FileTree α} {next : α → StateM FileTree β} (h : Sparing body)
    (k : ∀ a, Sparing (next a)) : Sparing (body >>= next) := fun t =>
  (h t).trans (k (body.run t).1 (body.run t).2)

theorem isDirectory (p : Path) : Sparing (storage.isDirectory p) := fun t => .refl t

theorem makeDirectory (p : Path) : Sparing (storage.makeDirectory p) := by
  intro t
  change SameFiles t ((update (·.withDirectory p)).run t).2
  rw [update_run]
  cases made : t.withDirectory p with
  | error e => exact .refl t
  | ok t' => exact sameFiles_withDirectory made

theorem ensureDirectory (p : Path) : Sparing (storage.ensureDirectory p) := by
  refine (makeDirectory p).bind fun answer => ?_
  cases answer with
  | ok => exact .pure _
  | error e => exact (isDirectory p).bind fun _ => .pure _

theorem createBelow (parents : List Path) : ∀ p, Sparing (storage.createBelow parents p) := by
  induction parents with
  | nil => exact fun _ => .pure _
  | cons above parents ih =>
      intro p
      refine (ensureDirectory p).bind fun answer => ?_
      split
      · refine (ih above).bind fun created => ?_
        cases created with
        | ok => exact ensureDirectory p
        | error e => exact .pure _
      · exact .pure _

theorem createDirectories (p : Path) : Sparing (storage.createDirectories p) :=
  createBelow p.parents p

end Sparing

/-- A text is written, or nothing changes. -/
theorem write_run (p : Path) (text : String) (t : FileTree) :
    (∃ e, (storage.write p text).run t = (.error e, t)) ∨
      ∃ t', (storage.write p text).run t = (.ok (), t') ∧ Stores t p text.toUTF8 t' := by
  have run := update_run (·.withFile p text.toUTF8) t
  cases written : t.withFile p text.toUTF8 with
  | error e =>
      rw [written] at run
      exact .inl ⟨e, run⟩
  | ok t' =>
      rw [written] at run
      exact .inr ⟨t', run, stores_withFile written⟩

end Stencil.FileTree
