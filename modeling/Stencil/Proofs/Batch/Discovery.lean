import Stencil.Batch.Discovery

/-! # What discovery finds and reports

The files of a list of patterns are the files that its patterns stand for, one after the other,
of each the first. A pattern is reported on two grounds only: it is no pattern, or it adds no
file to those of the patterns before it.
-/

namespace Stencil

namespace Path

theorem same_refl (p : Path) : p.same p = true := beq_self_eq_true p.steps

theorem same_comm (p q : Path) : p.same q = q.same p := BEq.comm

/-- Spellings of one path are the same as the same paths. -/
theorem same_congr {p q : Path} (h : p.same q = true) (f : Path) : f.same p = f.same q := by
  unfold same at h ⊢
  rw [eq_of_beq h]

end Path

namespace Discovery

/-! ## Adding files -/

theorem foldl_add_diagnostics (found : List Path) : ∀ d : Discovery,
    (found.foldl add d).diagnostics = d.diagnostics := by
  induction found with
  | nil => exact fun _ => rfl
  | cons file found ih =>
      intro d
      rw [List.foldl_cons, ih, add]
      split <;> rfl

/-- Of files that are added one after the other the first of each is kept. -/
theorem foldl_add_files (found : List Path) : ∀ d : Discovery,
    (found.foldl add d).files = List.eraseDupsBy.loop Path.same found d.files.reverse := by
  induction found with
  | nil => intro d; simp [List.eraseDupsBy.loop]
  | cons file found ih =>
      intro d
      rw [List.foldl_cons, ih, List.eraseDupsBy.loop, List.any_reverse, add]
      cases d.files.any file.same <;> simp

/-- A file is among those that are kept if it has been added or was there. -/
theorem any_foldl_add (found : List Path) (file : Path) : ∀ d : Discovery,
    (found.foldl add d).files.any file.same = (d.files.any file.same || found.any file.same) := by
  induction found with
  | nil => intro d; simp
  | cons next found ih =>
      intro d
      rw [List.foldl_cons, ih, List.any_cons, ← Bool.or_assoc]
      congr 1
      unfold add
      split
      · rename_i taken
        obtain ⟨kept, mem, same⟩ := List.any_eq_true.1 taken
        cases hit : file.same next with
        | false => rw [Bool.or_false]
        | true =>
            rw [Path.same_congr same] at hit
            rw [Bool.or_true, List.any_eq_true]
            exact ⟨kept, mem, hit⟩
      · simp

/-- No more files are kept exactly if all that are added were there. -/
theorem length_foldl_add (found : List Path) : ∀ d : Discovery,
    d.files.length ≤ (found.foldl add d).files.length ∧
      ((found.foldl add d).files.length = d.files.length ↔
        ∀ file ∈ found, d.files.any file.same = true) := by
  induction found with
  | nil => intro d; simp
  | cons file found ih =>
      intro d
      obtain ⟨more, iff⟩ := ih (d.add file)
      rw [List.foldl_cons, List.forall_mem_cons]
      unfold add at more iff ⊢
      split at iff
      · rename_i taken
        rw [if_pos taken] at more ⊢
        exact ⟨more, iff.trans ⟨fun h => ⟨taken, h⟩, And.right⟩⟩
      · rename_i free
        rw [if_neg free] at more ⊢
        simp only [List.length_append, List.length_singleton] at more
        exact ⟨by omega, fun h => by omega, fun h => (free h.1).elim⟩

/-- No two files that are kept are the same. -/
theorem foldl_add_distinct (found : List Path) : ∀ d : Discovery,
    (d.files.Pairwise fun p q => p.same q = false) →
      (found.foldl add d).files.Pairwise fun p q => p.same q = false := by
  induction found with
  | nil => exact fun _ => id
  | cons file found ih =>
      intro d distinct
      refine ih _ ?_
      unfold add
      split
      · exact distinct
      · rename_i free
        rw [Bool.not_eq_true, List.any_eq_false] at free
        rw [List.pairwise_append]
        refine ⟨distinct, List.pairwise_singleton _ _, fun kept mem _ here => ?_⟩
        rw [List.mem_singleton.1 here, Path.same_comm]
        exact Bool.eq_false_iff.2 (free kept mem)

/-! ## Patterns -/

/-- The files that a pattern stands for: the one whose path it is, or else those that it matches. -/
def standsFor (files : Files Id) (pattern : String) : List Path :=
  if (files.isFile ⟨pattern⟩).run then [⟨pattern⟩]
  else match Glob.parse pattern with
    | .error _ => []
    | .ok g => (g.expand files).run.filter fun p => (files.isFile p).run

/-- What is reported about a pattern when the files of the patterns before it are known. -/
def verdict? (files : Files Id) (known : List Path) (pattern : String) : Option Diagnostic :=
  if (files.isFile ⟨pattern⟩).run then none
  else match Glob.parse pattern with
    | .error fault => some (.badPattern pattern fault)
    | .ok _ =>
        if ∀ file ∈ standsFor files pattern, known.any file.same = true then some (.noMatch pattern)
        else none

/-- What is reported about patterns, one after the other. -/
def verdicts (files : Files Id) : List Path → List String → List Diagnostic
  | _, [] => []
  | known, pattern :: patterns =>
      (verdict? files known pattern).toList ++
        verdicts files (known ++ standsFor files pattern) patterns

variable {files : Files Id}

theorem filterAuxM_id {α : Type} (p : α → Id Bool) (xs : List α) : ∀ kept : List α,
    (xs.filterAuxM p kept).run = (xs.filter fun x => (p x).run).reverse ++ kept := by
  induction xs with
  | nil => exact fun _ => rfl
  | cons x xs ih =>
      intro kept
      rw [List.filterAuxM, Id.run_bind, ih, List.filter_cons]
      cases (p x).run <;> simp

theorem filterM_id {α : Type} (p : α → Id Bool) (xs : List α) :
    (xs.filterM p).run = xs.filter fun x => (p x).run := by
  rw [List.filterM, Id.run_bind, filterAuxM_id]
  simp

/-- What the step for one pattern does: its files are added, and its verdict is reported. -/
theorem addPattern_eq (d : Discovery) (pattern : String) :
    (addPattern files d pattern).run =
      { files := ((standsFor files pattern).foldl add d).files
        diagnostics := d.diagnostics ++ (verdict? files d.files pattern).toList } := by
  have grown := foldl_add_diagnostics (standsFor files pattern) d
  have longer := (length_foldl_add (standsFor files pattern) d).2
  cases literal : (files.isFile ⟨pattern⟩).run with
  | true =>
      have alone : standsFor files pattern = [⟨pattern⟩] := by simp [standsFor, literal]
      rw [alone] at grown ⊢
      simp only [verdict?, literal, if_true, Option.toList_none, List.append_nil, ← grown]
      simp [addPattern, literal]
  | false =>
      cases parsed : Glob.parse pattern with
      | error fault =>
          simp [addPattern, standsFor, verdict?, literal, parsed, report]
      | ok g =>
          have found : standsFor files pattern = ((g.expand files).run.filterM files.isFile).run := by
            simp [standsFor, literal, parsed, filterM_id]
          simp only [verdict?, literal, parsed, ← longer, ← grown, Bool.false_eq_true, if_false]
          simp only [addPattern, literal, parsed, Id.run_bind, Bool.false_eq_true, if_false]
          rw [← found]
          split <;> simp [report]

/-- A file is known by the files that are kept exactly if it is known by those that were added. -/
theorem verdict?_congr {kept known : List Path} (pattern : String)
    (same : ∀ file : Path, kept.any file.same = known.any file.same) :
    verdict? files kept pattern = verdict? files known pattern := by
  simp only [verdict?, same]

/-- What patterns add to a discovery that has kept, of each of the known files, the first. -/
theorem foldlM_addPattern (patterns : List String) : ∀ (known : List Path) (d : Discovery),
    d.files = (known.foldl add {}).files →
    (patterns.foldlM (addPattern files) d).run =
      { files := ((known ++ patterns.flatMap (standsFor files)).foldl add {}).files
        diagnostics := d.diagnostics ++ verdicts files known patterns } := by
  induction patterns with
  | nil =>
      intro known d kept
      simp [verdicts, ← kept]
  | cons pattern patterns ih =>
      intro known d kept
      have step : (addPattern files d pattern).run = _ := addPattern_eq d pattern
      have any_kept : ∀ file : Path, d.files.any file.same = known.any file.same := by
        intro file
        rw [kept, any_foldl_add]
        rfl
      rw [List.foldlM_cons, Id.run_bind, step, ih (known ++ standsFor files pattern)]
      · rw [verdict?_congr pattern any_kept, verdicts, List.flatMap_cons, List.append_assoc,
          List.append_assoc]
      · rw [foldl_add_files, kept, List.foldl_append]
        exact (foldl_add_files _ _).symm

/-- The files that are kept are, of each, the first that a pattern stands for; the reports are
those about the patterns one by one. -/
theorem ofPatterns_eq (patterns : List String) :
    (ofPatterns files patterns).run =
      { files := (patterns.flatMap (standsFor files)).eraseDupsBy Path.same
        diagnostics := verdicts files [] patterns } := by
  have run : (patterns.foldlM (addPattern files) {}).run = _ :=
    foldlM_addPattern patterns [] {} rfl
  rw [List.nil_append, List.nil_append, foldl_add_files] at run
  exact run

theorem ofPatterns_distinct (patterns : List String) :
    (ofPatterns files patterns).run.files.Pairwise fun p q => p.same q = false := by
  have run : (patterns.foldlM (addPattern files) {}).run = _ :=
    foldlM_addPattern patterns [] {} rfl
  rw [ofPatterns, run]
  exact foldl_add_distinct _ {} .nil

/-! ## Reports -/

theorem mem_verdicts {problem : Diagnostic} (patterns : List String) : ∀ known : List Path,
    problem ∈ verdicts files known patterns ↔ ∃ front pattern back,
      patterns = front ++ pattern :: back ∧
        verdict? files (known ++ front.flatMap (standsFor files)) pattern = some problem := by
  induction patterns with
  | nil => intro known; simp [verdicts]
  | cons pattern patterns ih =>
      intro known
      rw [verdicts, List.mem_append, Option.mem_toList, ih]
      constructor
      · rintro (here | ⟨front, later, back, rfl, verdict⟩)
        · exact ⟨[], pattern, patterns, rfl, by simpa using here⟩
        · exact ⟨pattern :: front, later, back, rfl, by simpa using verdict⟩
      · rintro ⟨front, later, back, whole, verdict⟩
        cases front with
        | nil =>
            cases whole
            exact .inl (by simpa using verdict)
        | cons first front =>
            cases whole
            exact .inr ⟨front, later, back, rfl, by simpa using verdict⟩

theorem verdict?_eq_badPattern_iff (known : List Path) (p : String) {pattern : String}
    {fault : GlobFault} : verdict? files known p = some (.badPattern pattern fault) ↔
      p = pattern ∧ (files.isFile ⟨p⟩).run = false ∧ Glob.parse p = .error fault := by
  cases literal : (files.isFile ⟨p⟩).run with
  | true => simp [verdict?, literal]
  | false =>
      cases parsed : Glob.parse p with
      | error other => simp [verdict?, literal, parsed]
      | ok g => simp [verdict?, literal, parsed]

theorem verdict?_eq_noMatch_iff (known : List Path) (p : String) {pattern : String} :
    verdict? files known p = some (.noMatch pattern) ↔
      p = pattern ∧ (files.isFile ⟨p⟩).run = false ∧ (∃ g, Glob.parse p = .ok g) ∧
        ∀ file ∈ standsFor files p, known.any file.same = true := by
  cases literal : (files.isFile ⟨p⟩).run with
  | true => simp [verdict?, literal]
  | false =>
      cases parsed : Glob.parse p with
      | error other => simp [verdict?, literal, parsed]
      | ok g => simp [verdict?, literal, parsed, and_comm]

/-- Reports are about patterns. -/
theorem ofPatterns_diagnostics (patterns : List String) :
    ∀ d ∈ (ofPatterns files patterns).run.diagnostics, ∃ pattern,
      d = .noMatch pattern ∨ ∃ fault, d = .badPattern pattern fault := by
  intro d mem
  rw [ofPatterns_eq, mem_verdicts] at mem
  obtain ⟨front, pattern, back, -, verdict⟩ := mem
  unfold verdict? at verdict
  refine ⟨pattern, ?_⟩
  split at verdict
  · cases verdict
  · split at verdict
    · cases verdict
      exact .inr ⟨_, rfl⟩
    · split at verdict <;> cases verdict
      exact .inl rfl

/-- A pattern is reported as none exactly if it is none and not the path of a file, whatever
patterns stand beside it. -/
theorem badPattern_mem_iff (patterns : List String) (pattern : String) (fault : GlobFault) :
    .badPattern pattern fault ∈ (ofPatterns files patterns).run.diagnostics ↔
      pattern ∈ patterns ∧ (files.isFile ⟨pattern⟩).run = false ∧
        Glob.parse pattern = .error fault := by
  rw [ofPatterns_eq, mem_verdicts]
  constructor
  · rintro ⟨front, p, back, rfl, verdict⟩
    obtain ⟨rfl, other, bad⟩ := (verdict?_eq_badPattern_iff ..).1 verdict
    exact ⟨by simp, other, bad⟩
  · rintro ⟨mem, other, bad⟩
    obtain ⟨front, back, rfl⟩ := List.append_of_mem mem
    exact ⟨front, pattern, back, rfl, (verdict?_eq_badPattern_iff ..).2 ⟨rfl, other, bad⟩⟩

/-- A pattern is reported to match nothing exactly if it is a pattern, not the path of a file, and
every file that it matches is among those of the patterns before it. -/
theorem noMatch_mem_iff (patterns : List String) (pattern : String) :
    .noMatch pattern ∈ (ofPatterns files patterns).run.diagnostics ↔ ∃ front back,
      patterns = front ++ pattern :: back ∧ (files.isFile ⟨pattern⟩).run = false ∧
        (∃ g, Glob.parse pattern = .ok g) ∧
        ∀ file ∈ standsFor files pattern, ∃ known ∈ front.flatMap (standsFor files),
          file.same known = true := by
  rw [ofPatterns_eq, mem_verdicts]
  constructor
  · rintro ⟨front, p, back, rfl, verdict⟩
    obtain ⟨rfl, other, good, known⟩ := (verdict?_eq_noMatch_iff ..).1 verdict
    exact ⟨front, back, rfl, other, good, fun file mem => List.any_eq_true.1 (known file mem)⟩
  · rintro ⟨front, back, rfl, other, good, known⟩
    refine ⟨front, pattern, back, rfl, (verdict?_eq_noMatch_iff ..).2 ⟨rfl, other, good, ?_⟩⟩
    exact fun file mem => List.any_eq_true.2 (known file mem)

end Discovery

end Stencil
