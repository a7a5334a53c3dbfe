import Mathlib.Data.List.Induction
import Stencil.Proofs.Batch.Artifact

/-! # The accounts of a run that keeps going

A run that keeps going accounts for each of its inputs once: an input has its template in
the artifact, or one diagnostic is about it. What an input comes to is settled by its own
text, and by the names that the inputs in front of it have taken.
-/

namespace Stencil

/-- Whether a diagnostic is about a file, however it spells the path. -/
def Diagnostic.names (d : Diagnostic) (file : Path) : Bool := d.file?.any file.same

namespace Batch

open FileTree (SameFiles Stores storage)

/-! ## Fates -/

/-- What comes of a file when reading it has given an error or a text. -/
def alone (config : Config) (file : Path) :
    Except FileError String → Except Diagnostic CompiledTemplate
  | .error e => .error (.unreadable file e)
  | .ok text =>
      ((compileSource config { name := file.text, text }).run { name := file.text }).1.mapError
        (.malformed file)

section
variable (o : Options) (t : FileTree)

/-- What a file of a run comes to by itself. -/
def resultOf (file : Path) : Except Diagnostic CompiledTemplate :=
  alone o.effectiveConfig file (t.files.readText file).run

/-- Whether some file has compiled under a name. -/
def taken (files : List Path) (name : String) : Bool :=
  files.any fun file => file.templateName == name && (resultOf o t file).isOk

/-- What a file comes to behind others: its template, or what is reported about it. -/
def fate (front : List Path) (file : Path) : Except Diagnostic CompiledTemplate :=
  match resultOf o t file with
  | .error d => .error d
  | .ok template =>
      if taken o t front file.templateName then .error (.duplicate file file.templateName)
      else .ok template

/-- Files behind others, each with what it comes to. -/
def fates : List Path → List Path → List (Path × Except Diagnostic CompiledTemplate)
  | _, [] => []
  | front, file :: files => (file, fate o t front file) :: fates (front ++ [file]) files

/-- The templates of files, by their names. -/
def templatesOf (files : List Path) : Bundle :=
  (fates o t [] files).filterMap fun (file, fate) =>
    fate.toOption.map fun template => (file.templateName, template)

def failure? : Except Diagnostic CompiledTemplate → Option Diagnostic
  | .error d => some d
  | .ok _ => none

/-- What is reported about files. -/
def failuresOf (files : List Path) : List Diagnostic :=
  (fates o t [] files).filterMap fun (_, fate) => failure? fate

end

variable {o : Options} {t : FileTree}

theorem outcomeOf_result (file : Path) : (outcomeOf o t file).result = resultOf o t file := by
  change (match t.files.readText file with | .error _ => _ | .ok _ => _ : Outcome).result = _
  unfold resultOf
  cases t.files.readText file <;> rfl

theorem resultOf_file? {file : Path} {d : Diagnostic} (h : resultOf o t file = .error d) :
    d.file? = some file := by
  rw [← outcomeOf_result] at h
  obtain ⟨e, rfl⟩ | ⟨e, rfl⟩ := compileFile_error h <;> rfl

/-- A file does not compile, or its name is taken, or it has its template in the artifact. -/
theorem fate_cases (front : List Path) (file : Path) :
    (∃ d, resultOf o t file = .error d ∧ fate o t front file = .error d) ∨
    (∃ template, resultOf o t file = .ok template ∧
      taken o t front file.templateName = true ∧
      fate o t front file = .error (.duplicate file file.templateName)) ∨
    (∃ template, resultOf o t file = .ok template ∧
      taken o t front file.templateName = false ∧ fate o t front file = .ok template) := by
  unfold fate
  cases result : resultOf o t file with
  | error d => exact .inl ⟨d, rfl, rfl⟩
  | ok template =>
      cases free : taken o t front file.templateName with
      | true => exact .inr (.inl ⟨template, rfl, rfl, rfl⟩)
      | false => exact .inr (.inr ⟨template, rfl, rfl, rfl⟩)

theorem fate_file? {front : List Path} {file : Path} {d : Diagnostic}
    (h : fate o t front file = .error d) : d.file? = some file := by
  rcases fate_cases (o := o) (t := t) front file with
    ⟨d', result, come⟩ | ⟨_, -, -, come⟩ | ⟨_, -, -, come⟩
  · rw [come] at h
    cases h
    exact resultOf_file? result
  · rw [come] at h
    cases h
    rfl
  · rw [come] at h
    cases h

theorem fates_append (files more : List Path) : ∀ front : List Path,
    fates o t front (files ++ more) = fates o t front files ++ fates o t (front ++ files) more := by
  induction files with
  | nil => intro front; simp [fates]
  | cons file files ih => intro front; simp [fates, ih]

theorem templatesOf_snoc (files : List Path) (file : Path) :
    templatesOf o t (files ++ [file]) = templatesOf o t files ++
      ((fate o t files file).toOption.map fun template => (file.templateName, template)).toList := by
  rw [templatesOf, fates_append, List.filterMap_append]
  cases come : fate o t files file <;> simp [templatesOf, fates, come, Except.toOption]

theorem failuresOf_snoc (files : List Path) (file : Path) :
    failuresOf o t (files ++ [file]) =
      failuresOf o t files ++ (failure? (fate o t files file)).toList := by
  rw [failuresOf, fates_append, List.filterMap_append]
  cases come : fate o t files file <;> simp [failuresOf, fates, come, failure?]

/-- What a file comes to depends on the configuration, on its own text, and on whether its name
is taken. -/
theorem fate_congr {o' : Options} {t' : FileTree} {front front' : List Path} {file : Path}
    (config : o'.effectiveConfig = o.effectiveConfig)
    (text : t'.files.readText file = t.files.readText file)
    (name : taken o' t' front' file.templateName = taken o t front file.templateName) :
    fate o' t' front' file = fate o t front file := by
  rw [fate, fate, resultOf, resultOf, config, text, name]

/-! ## Names of templates -/

theorem taken_snoc (files : List Path) (file : Path) (name : String) :
    taken o t (files ++ [file]) name =
      (taken o t files name || file.templateName == name && (resultOf o t file).isOk) := by
  simp [taken]

/-- A name is taken exactly if a template has it. -/
theorem lookup_templatesOf (files : List Path) (name : String) :
    ((templatesOf o t files).lookup name).isSome = taken o t files name := by
  induction files using List.reverseRecOn with
  | nil => rfl
  | append_singleton files file ih =>
      rw [templatesOf_snoc, taken_snoc, List.lookup_append, Option.isSome_or, ih]
      rcases fate_cases (o := o) (t := t) files file with
        ⟨d, result, come⟩ | ⟨template, result, again, come⟩ | ⟨template, result, -, come⟩
      · simp [come, result, Except.toOption, Except.isOk, Except.toBool]
      · by_cases same : file.templateName = name
        · subst same
          simp [again]
        · simp [come, same, Except.toOption]
      · by_cases same : file.templateName = name
        · simp [come, result, same, Except.toOption, Except.isOk, Except.toBool]
        · have other : (name == file.templateName) = false :=
            beq_eq_false_iff_ne.2 (Ne.symm same)
          simp [come, same, other, Except.toOption, List.lookup_cons]

theorem nodup_templatesOf (files : List Path) : ((templatesOf o t files).map Prod.fst).Nodup := by
  induction files using List.reverseRecOn with
  | nil => exact .nil
  | append_singleton files file ih =>
      rw [templatesOf_snoc]
      rcases fate_cases (o := o) (t := t) files file with
        ⟨d, -, come⟩ | ⟨template, -, -, come⟩ | ⟨template, -, free, come⟩
      · simpa [come, Except.toOption] using ih
      · simpa [come, Except.toOption] using ih
      · rw [← lookup_templatesOf, Option.isSome_eq_false_iff, Option.isNone_iff_eq_none,
          List.lookup_eq_none_iff] at free
        rw [List.map_append, List.nodup_append]
        refine ⟨ih, by simp [come, Except.toOption], ?_⟩
        rintro _ mem _ here rfl
        obtain ⟨entry, inside, rfl⟩ := List.mem_map.1 mem
        have other := free entry inside
        simp_all [Except.toOption]

theorem failure?_fate_eq_none_iff (front : List Path) (file : Path) :
    failure? (fate o t front file) = none ↔
      (resultOf o t file).isOk ∧ taken o t front file.templateName = false := by
  rcases fate_cases (o := o) (t := t) front file with
    ⟨d, result, come⟩ | ⟨template, result, again, come⟩ | ⟨template, result, free, come⟩
  · simp [come, result, failure?, Except.isOk, Except.toBool]
  · simp [come, again, failure?]
  · simp [come, result, free, failure?, Except.isOk, Except.toBool]

/-- Nothing is reported exactly if all files compile and no two have the same name. -/
theorem failuresOf_eq_nil_iff (files : List Path) : failuresOf o t files = [] ↔
    (∀ file ∈ files, (resultOf o t file).isOk) ∧ (files.map Path.templateName).Nodup := by
  induction files using List.reverseRecOn with
  | nil => simp [failuresOf, fates]
  | append_singleton files file ih =>
      -- Among files that all compile a name is taken by any file of that name.
      have free_iff (all : ∀ file ∈ files, (resultOf o t file).isOk) :
          taken o t files file.templateName = false ↔
            file.templateName ∉ files.map Path.templateName := by
        simp +contextual [taken, all]
      rw [failuresOf_snoc, List.append_eq_nil_iff, ih, Option.toList_eq_nil_iff,
        failure?_fate_eq_none_iff, List.forall_mem_append, List.forall_mem_singleton,
        List.map_append, List.map_singleton, (List.perm_append_singleton _ _).nodup_iff,
        List.nodup_cons]
      constructor
      · rintro ⟨⟨all, distinct⟩, compiles, free⟩
        exact ⟨⟨all, compiles⟩, (free_iff all).1 free, distinct⟩
      · rintro ⟨⟨all, compiles⟩, free, distinct⟩
        exact ⟨⟨all, distinct⟩, compiles, (free_iff all).2 free⟩

/-- There are as many templates and reports as there are files. -/
theorem length_templatesOf_add (files : List Path) :
    (templatesOf o t files).length + (failuresOf o t files).length = files.length := by
  induction files using List.reverseRecOn with
  | nil => rfl
  | append_singleton files file ih =>
      rw [templatesOf_snoc, failuresOf_snoc, List.length_append, List.length_append,
        List.length_append, ← ih]
      cases fate o t files file with
      | error d => simp [failure?, Except.toOption]; omega
      | ok template => simp [failure?, Except.toOption]; omega

/-! ## Gathering -/

/-- What a report says when these files are through. -/
structure Through (o : Options) (t : FileTree) (found : List Diagnostic) (files : List Path)
    (r : Report) : Prop where
  templates : r.templates = templatesOf o t files
  diagnostics : r.diagnostics = found ++ failuresOf o t files

theorem Through.step {found : List Diagnostic} {files : List Path} {r : Report}
    (h : Through o t found files r) (file : Path) (more : List Outcome) :
    ∃ r', r.gather true (outcomeOf o t file :: more) = r'.gather true more ∧
      Through o t found (files ++ [file]) r' := by
  have named : (outcomeOf o t file).file = file := compileFile_file ..
  -- The run looks a name up among the templates so far, not among the files.
  have known : (r.templates.lookup file.templateName).isSome = taken o t files file.templateName := by
    rw [h.templates, lookup_templatesOf]
  rcases fate_cases (o := o) (t := t) files file with
    ⟨d, result, come⟩ | ⟨template, result, again, come⟩ | ⟨template, result, free, come⟩
  · refine ⟨r.addDiagnostic d, ?_, ?_, ?_⟩
    · simp [Report.gather, outcomeOf_result, result]
    · simp [templatesOf_snoc, come, Report.addDiagnostic, h.templates, Except.toOption]
    · simp [failuresOf_snoc, come, Report.addDiagnostic, h.diagnostics, failure?]
  · refine ⟨r.addDiagnostic (.duplicate file file.templateName), ?_, ?_, ?_⟩
    · simp [Report.gather, outcomeOf_result, result, named, known, again]
    · simp [templatesOf_snoc, come, Report.addDiagnostic, h.templates, Except.toOption]
    · simp [failuresOf_snoc, come, Report.addDiagnostic, h.diagnostics, failure?]
  · refine ⟨r.addTemplate file template, ?_, ?_, ?_⟩
    · simp [Report.gather, outcomeOf_result, result, named, known, free]
    · simp [templatesOf_snoc, come, Report.addTemplate, h.templates, Except.toOption]
    · simp [failuresOf_snoc, come, Report.addTemplate, h.diagnostics, failure?]

theorem Through.gather {found : List Diagnostic} (files : List Path) : ∀ {before} {r : Report},
    Through o t found before r → ∃ r', r.gather true (files.map (outcomeOf o t)) = .ok r' ∧
      Through o t found (before ++ files) r' := by
  induction files with
  | nil =>
      intro before r h
      exact ⟨r, rfl, by rwa [List.append_nil]⟩
  | cons file files ih =>
      intro before r h
      obtain ⟨between, same, through⟩ := h.step file (files.map (outcomeOf o t))
      obtain ⟨r', ran, all⟩ := ih through
      rw [List.append_assoc] at all
      exact ⟨r', same.trans ran, all⟩

/-! ## Who is named -/

theorem mem_fates {file : Path} {come : Except Diagnostic CompiledTemplate} (files : List Path) :
    ∀ front, (file, come) ∈ fates o t front files →
      file ∈ files ∧ ∃ before, come = fate o t before file := by
  induction files with
  | nil => nofun
  | cons first files ih =>
      intro front mem
      rcases List.mem_cons.1 mem with here | behind
      · cases here
        exact ⟨List.mem_cons_self, front, rfl⟩
      · obtain ⟨inside, before, same⟩ := ih _ behind
        exact ⟨List.mem_cons_of_mem first inside, before, same⟩

/-- What is reported about files names one of them. -/
theorem filter_names_fates (file : Path) (front files : List Path)
    (others : ∀ other ∈ files, file.same other = false) :
    ((fates o t front files).filterMap fun (_, come) => failure? come).filter (·.names file) =
      [] := by
  rw [List.filter_eq_nil_iff]
  intro d mem
  obtain ⟨⟨other, come⟩, inside, failed⟩ := List.mem_filterMap.1 mem
  obtain ⟨here, before, rfl⟩ := mem_fates files front inside
  cases come : fate o t before other with
  | ok template => simp [come, failure?] at failed
  | error d' =>
      rw [come] at failed
      cases failed
      simp [Diagnostic.names, fate_file? come, others other here]

/-- About a file that is listed once at most one thing is reported. -/
theorem filter_names_failuresOf {front back : List Path} {file : Path}
    (distinct : (front ++ file :: back).Pairwise fun p q => p.same q = false) :
    (failuresOf o t (front ++ file :: back)).filter (·.names file) =
      (failure? (fate o t front file)).toList := by
  obtain ⟨-, behind, before⟩ := List.pairwise_append.1 distinct
  rw [failuresOf, fates_append, List.nil_append, fates, List.filterMap_append, List.filter_append,
    List.filterMap_cons]
  rw [filter_names_fates file [] front fun other mem => by
    rw [Path.same_comm]
    exact before other mem file List.mem_cons_self]
  have rest := filter_names_fates (o := o) (t := t) file (front ++ [file]) back
    (List.pairwise_cons.1 behind).1
  cases come : fate o t front file with
  | ok template => simpa [failure?] using rest
  | error d =>
      have named : d.names file = true := by
        simp [Diagnostic.names, fate_file? come, Path.same_refl]
      simpa [failure?, named] using rest

/-! ## The run -/

/-- The artifact of a run that keeps going. -/
def artifactOf (o : Options) (t : FileTree) : Artifact where
  directory := o.outDir
  file := o.output
  text := artifactText o.format (templatesOf o t (discovered o t).files)

/-- The answer to saving the artifact. -/
def saving (o : Options) (t : FileTree) : Except Diagnostic Unit :=
  ((save storage (artifactOf o t)).run t).1

/-- What is reported about the run itself: there is nothing to compile, or its artifact is
not saved. -/
def closing (o : Options) (t : FileTree) : Option Diagnostic :=
  if (templatesOf o t (discovered o t).files).isEmpty then
    if (discovered o t).files.isEmpty && (discovered o t).diagnostics.isEmpty then
      some .nothingToCompile
    else none
  else
    match saving o t with
    | .error d => some d
    | .ok () => none

theorem plan_on (o : Options) (t : FileTree) (on : o.keepGoing = true) :
    ∃ r, (plan t.files o).run = planOf o (.ok r) ∧
      Through o t (discovered o t).diagnostics (discovered o t).files r := by
  have start : Through o t (discovered o t).diagnostics [] (begun o t) :=
    ⟨rfl, (List.append_nil _).symm⟩
  obtain ⟨r, ran, through⟩ := start.gather (discovered o t).files
  refine ⟨r, ?_, through⟩
  rw [plan_eq, on, ran]
  rfl

/-- What a run that keeps going reports and writes, and the files that it leaves. -/
structure Reported (o : Options) (t : FileTree) (r : Result) (after : FileTree) : Prop where
  templates : r.report.templates = templatesOf o t (discovered o t).files
  diagnostics : r.report.diagnostics =
    (discovered o t).diagnostics ++ failuresOf o t (discovered o t).files ++ (closing o t).toList
  output : r.output = some o.output ↔ r.report.templates ≠ [] ∧ saving o t = .ok ()
  stored : ∀ file, r.output = some file →
    Stores t file (artifactText o.format r.report.templates).toUTF8 after
  spared : r.output = none → SameFiles t after

/-- Without templates there is nothing to compile exactly if nothing else is reported. -/
theorem closing_of_nil {o : Options} {t : FileTree}
    (nothing : templatesOf o t (discovered o t).files = []) :
    closing o t = if ((discovered o t).diagnostics ++
      failuresOf o t (discovered o t).files).isEmpty then some .nothingToCompile else none := by
  have count := length_templatesOf_add (o := o) (t := t) (discovered o t).files
  rw [nothing, List.length_nil, Nat.zero_add] at count
  have same : failuresOf o t (discovered o t).files = [] ↔ (discovered o t).files = [] := by
    rw [← List.length_eq_zero_iff, count, List.length_eq_zero_iff]
  simp [closing, nothing, same, and_comm]

theorem closing_of_ne_nil {o : Options} {t : FileTree}
    (something : templatesOf o t (discovered o t).files ≠ []) :
    closing o t = match saving o t with
      | .error d => some d
      | .ok () => none := by
  rw [closing, List.isEmpty_eq_false_iff.2 something]
  rfl

/-- A run that has written nothing had no template, or has not been able to save them. -/
theorem reported_of_unwritten {o : Options} {t after : FileTree} {r : Report}
    (templates : r.templates = templatesOf o t (discovered o t).files)
    (diagnostics : r.diagnostics = (discovered o t).diagnostics ++
      failuresOf o t (discovered o t).files ++ (closing o t).toList)
    (unsaved : r.templates ≠ [] → saving o t ≠ .ok ()) (same : SameFiles t after) :
    Reported o t { report := r } after where
  templates := templates
  diagnostics := diagnostics
  output := by
    constructor
    · intro written
      cases written
    · rintro ⟨something, saved⟩
      exact (unsaved something saved).elim
  stored file written := by cases written
  spared _ := same

theorem reported_on (o : Options) (t : FileTree) (on : o.keepGoing = true) :
    Reported o t (perform o t).1 (perform o t).2 := by
  have ran : perform o t = (finish storage (plan t.files o).run).run t := rfl
  obtain ⟨r, planned, templates, diagnostics⟩ := plan_on o t on
  rw [ran, planned, planOf]
  cases empty : r.templates.isEmpty with
  | true =>
      have nothing := List.isEmpty_iff.1 empty
      have last := closing_of_nil (templates.symm.trans nothing)
      rw [← diagnostics] at last
      rw [if_pos rfl, finish_none rfl]
      cases silent : r.diagnostics.isEmpty with
      | true =>
          rw [silent, if_pos rfl] at last
          refine reported_of_unwritten templates ?_ (fun something => (something nothing).elim) (.refl t)
          rw [last, ← diagnostics]
          rfl
      | false =>
          rw [silent, if_neg Bool.false_ne_true] at last
          refine reported_of_unwritten templates ?_ (fun something => (something nothing).elim) (.refl t)
          rw [last, ← diagnostics]
          exact (List.append_nil _).symm
  | false =>
      have something := List.isEmpty_eq_false_iff.1 empty
      have last := closing_of_ne_nil (templates ▸ something)
      have artifact : artifactOf o t = ⟨o.outDir, o.output, artifactText o.format r.templates⟩ := by
        rw [artifactOf, templates]
      rw [if_neg Bool.false_ne_true, finish_some rfl, ← artifact]
      rcases save_run (artifactOf o t) t with ⟨d, t', refused, -, same⟩ | ⟨t', done, stored⟩
      · have answer : saving o t = .error d := by rw [saving, refused]
        rw [answer] at last
        rw [refused]
        refine reported_of_unwritten templates ?_ (fun _ saved => ?_) same
        · rw [last, ← diagnostics]
          rfl
        · rw [answer] at saved
          cases saved
      · have answer : saving o t = .ok () := by rw [saving, done]
        rw [answer] at last
        rw [done]
        refine ⟨templates, ?_, ⟨fun _ => ⟨something, answer⟩, fun _ => rfl⟩, ?_, ?_⟩
        · rw [last, ← diagnostics]
          exact (List.append_nil _).symm
        · intro file written
          cases written
          rw [artifact] at stored
          exact stored
        · intro unwritten
          cases unwritten

theorem closing_file? (o : Options) (t : FileTree) : ∀ d ∈ closing o t, d.file? = none := by
  intro d mem
  unfold closing at mem
  split at mem
  · split at mem <;> cases mem
    rfl
  · rcases save_run (artifactOf o t) t with ⟨d', t', refused, other, -⟩ | ⟨t', done, -⟩
    · rw [saving, refused] at mem
      cases mem
      exact other
    · rw [saving, done] at mem
      cases mem

/-- A run that has reported nothing so far ends well exactly if there are files and the artifact
is saved. -/
theorem closing_eq_none_iff {o : Options} {t : FileTree}
    (found : (discovered o t).diagnostics = [])
    (silent : failuresOf o t (discovered o t).files = []) :
    closing o t = none ↔ (discovered o t).files ≠ [] ∧ saving o t = .ok () := by
  have count := length_templatesOf_add (o := o) (t := t) (discovered o t).files
  rw [silent, List.length_nil, Nat.add_zero] at count
  have same : templatesOf o t (discovered o t).files = [] ↔ (discovered o t).files = [] := by
    rw [← List.length_eq_zero_iff, count, List.length_eq_zero_iff]
  by_cases nothing : templatesOf o t (discovered o t).files = []
  · rw [closing_of_nil nothing, found, silent]
    simp [same.1 nothing]
  · rw [closing_of_ne_nil nothing]
    have some_file := mt same.2 nothing
    cases saving o t <;> simp [some_file]

theorem Reported.exitCode_eq_zero_iff {o : Options} {t after : FileTree} {r : Result}
    (h : Reported o t r after) : r.exitCode = 0 ↔
      (discovered o t).diagnostics = [] ∧ (discovered o t).files ≠ [] ∧
        (∀ file ∈ (discovered o t).files, (resultOf o t file).isOk) ∧
        ((discovered o t).files.map Path.templateName).Nodup ∧ saving o t = .ok () := by
  have silent_iff : r.exitCode = 0 ↔ r.report.diagnostics = [] := by
    rw [Result.exitCode]
    cases r.report.diagnostics <;> simp
  rw [silent_iff, h.diagnostics, List.append_eq_nil_iff, List.append_eq_nil_iff,
    Option.toList_eq_nil_iff]
  constructor
  · rintro ⟨⟨found, silent⟩, last⟩
    obtain ⟨files, saved⟩ := (closing_eq_none_iff found silent).1 last
    obtain ⟨compile, distinct⟩ := (failuresOf_eq_nil_iff _).1 silent
    exact ⟨found, files, compile, distinct, saved⟩
  · rintro ⟨found, files, compile, distinct, saved⟩
    have silent := (failuresOf_eq_nil_iff (discovered o t).files).2 ⟨compile, distinct⟩
    exact ⟨⟨found, silent⟩, (closing_eq_none_iff found silent).2 ⟨files, saved⟩⟩

/-- What is reported about a file is what it comes to. -/
theorem Reported.filter_names {o : Options} {t after : FileTree} {r : Result}
    (h : Reported o t r after) {front back : List Path} {file : Path}
    (split : (discovered o t).files = front ++ file :: back) :
    r.report.diagnostics.filter (·.names file) = (failure? (fate o t front file)).toList := by
  have distinct : (discovered o t).files.Pairwise _ := Discovery.ofPatterns_distinct o.inputs
  have impersonal (ds : List Diagnostic) (none : ∀ d ∈ ds, d.file? = none) :
      ds.filter (·.names file) = [] := by
    rw [List.filter_eq_nil_iff]
    intro d mem
    simp [Diagnostic.names, none d mem]
  have found : (discovered o t).diagnostics.filter (·.names file) = [] :=
    impersonal _ (ofPatterns_file? t.files o.inputs)
  have last : (closing o t).toList.filter (·.names file) = [] :=
    impersonal _ fun d mem => closing_file? o t d (Option.mem_toList.1 mem)
  rw [split] at distinct
  rw [h.diagnostics, List.filter_append, List.filter_append, found, last, split,
    filter_names_failuresOf distinct, List.nil_append, List.append_nil]

theorem mem_templatesOf {front back : List Path} {file : Path} {template : CompiledTemplate}
    (come : fate o t front file = .ok template) :
    (file.templateName, template) ∈ templatesOf o t (front ++ file :: back) := by
  rw [templatesOf, fates_append, List.nil_append, fates, come]
  simp [Except.toOption]

/-- The kinds of the templates of files are canonical. -/
theorem canonical_templatesOf {files : List Path} :
    ∀ entry ∈ templatesOf o t files, entry.2.Canonical := by
  intro entry mem
  obtain ⟨⟨file, come⟩, inside, made⟩ := List.mem_filterMap.1 mem
  obtain ⟨-, before, rfl⟩ := mem_fates files [] inside
  rcases fate_cases (o := o) (t := t) before file with
    ⟨d, -, refused⟩ | ⟨template, -, -, refused⟩ | ⟨template, result, -, come⟩
  · simp [refused, Except.toOption] at made
  · simp [refused, Except.toOption] at made
  · simp only [come, Except.toOption, Option.map_some, Option.some.injEq] at made
    subst made
    unfold resultOf alone at result
    split at result
    · cases result
    · rename_i text read
      suffices accepted : ((compileSource o.effectiveConfig { name := file.text, text }).run
          { name := file.text }).1 = .ok template from
        Compile.canonical_compileSource (Document.sound_empty file.text false) accepted
      cases compiled : ((compileSource o.effectiveConfig { name := file.text, text }).run
          { name := file.text }).1 with
      | error e =>
          rw [compiled] at result
          cases result
      | ok template' =>
          rw [compiled] at result
          cases result
          rfl

/-- What a run that keeps going comes to. -/
structure Accounted (o : Options) (t : FileTree) (r : Result) (after : FileTree) : Prop
    extends Reported o t r after where
  /-- No two templates have the same name. -/
  distinct : (r.report.templates.map Prod.fst).Nodup
  /-- A file has its template in the artifact, or one thing is reported about it. -/
  once : ∀ front file back, (discovered o t).files = front ++ file :: back →
    match fate o t front file with
    | .ok template => (file.templateName, template) ∈ r.report.templates ∧
        r.report.diagnostics.filter (·.names file) = []
    | .error d => r.report.diagnostics.filter (·.names file) = [d]
  /-- What a file comes to in two runs differs by its text or by whether its name is taken. -/
  independent : ∀ (o' : Options) (t' : FileTree) front front' file,
    o'.effectiveConfig = o.effectiveConfig →
    t'.files.readText file = t.files.readText file →
    taken o' t' front' file.templateName = taken o t front file.templateName →
      fate o' t' front' file = fate o t front file
  /-- The file that has been written holds exactly these templates. -/
  held : ∀ file, r.output = some file →
    ∃ text, (after.files.readText file).run = .ok text ∧ o.format.Holds text r.report.templates
  exitCode : r.exitCode = 0 ↔ (discovered o t).diagnostics = [] ∧ (discovered o t).files ≠ [] ∧
    (∀ file ∈ (discovered o t).files, (resultOf o t file).isOk) ∧
    ((discovered o t).files.map Path.templateName).Nodup ∧ saving o t = .ok ()

/-- A run that keeps going accounts for each input once. It writes an artifact exactly if
there is a template and it can be saved, the artifact is read back as exactly the templates, and the
run ends well exactly if all inputs compile under
names of their own and nothing else is reported. -/
theorem perform_accounts (o : Options) (t : FileTree) (on : o.keepGoing = true) :
    Accounted o t (perform o t).1 (perform o t).2 := by
  have reported := reported_on o t on
  have distinct : ((perform o t).1.report.templates.map Prod.fst).Nodup := by
    rw [reported.templates]
    exact nodup_templatesOf _
  refine { reported with
    distinct
    once := ?_
    independent := fun _ _ _ _ _ => fate_congr
    held := fun file written => ⟨_, (reported.stored file written).readText,
      holds_artifactText o.format distinct (by rw [reported.templates]; exact canonical_templatesOf)⟩
    exitCode := reported.exitCode_eq_zero_iff }
  intro front file back split
  have named := reported.filter_names split
  cases come : fate o t front file with
  | error d =>
      rw [come] at named
      exact named
  | ok template =>
      rw [come] at named
      refine ⟨?_, named⟩
      rw [reported.templates, split]
      exact mem_templatesOf come

/-- A file that compiles, one that is no text, and one whose name is taken. -/
def mixedTree : FileTree := .directory [
  ("a.html", .file "<p></p>".toUTF8),
  ("b.html", .file ⟨#[255]⟩),
  ("c", .directory [("a.html", .file "<i></i>".toUTF8)])]

def mixedOptions : Options := { inputs := ["a.html", "b.html", "c/a.html"], keepGoing := true }

theorem perform_accounts_mixed :
    Accounted mixedOptions mixedTree (perform mixedOptions mixedTree).1
        (perform mixedOptions mixedTree).2 ∧
      (perform mixedOptions mixedTree).1.report.diagnostics =
        [.unreadable ⟨"b.html"⟩ .notText, .duplicate ⟨"c/a.html"⟩ "a"] ∧
      (perform mixedOptions mixedTree).1.output = some ⟨"./templates.json"⟩ ∧
      ∃ text template, ((perform mixedOptions mixedTree).2.files.readText ⟨"./templates.json"⟩).run =
          .ok text ∧ Bundle.read? text = some [("a", template)] ∧
        template.markup = "<div class=\"poirot-rendered\"><p></p></div>" ∧ template.slots.length = 0 := by
  have accounts := perform_accounts mixedOptions mixedTree rfl
  have written : (perform mixedOptions mixedTree).1.output = some ⟨"./templates.json"⟩ := by
    decide +kernel
  refine ⟨accounts, by decide +kernel, written, ?_⟩
  obtain ⟨text, read, -, bundle⟩ := accounts.held _ written
  have shallow : (Bundle.toJson (perform mixedOptions mixedTree).1.report.templates).nesting ≤
      Json.maxDepth := by decide +kernel
  have only : (perform mixedOptions mixedTree).1.report.templates.map (·.1) = ["a"] ∧
      (perform mixedOptions mixedTree).1.report.templates.map (·.2.markup) =
        ["<div class=\"poirot-rendered\"><p></p></div>"] ∧
      (perform mixedOptions mixedTree).1.report.templates.map (·.2.slots.length) = [0] := by
    decide +kernel
  have back := bundle.2 shallow
  generalize (perform mixedOptions mixedTree).1.report.templates = templates at only back
  obtain ⟨names, markups, counts⟩ := only
  obtain ⟨⟨name, template⟩, rfl, rfl⟩ := List.map_eq_singleton_iff.1 names
  exact ⟨text, template, read, back, List.singleton_inj.1 markups, List.singleton_inj.1 counts⟩

end Batch

end Stencil
