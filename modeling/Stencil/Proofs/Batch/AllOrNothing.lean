import Stencil.Batch.Run
import Stencil.Proofs.Batch.Discovery
import Stencil.Proofs.Files.Tree

/-! # All or nothing

A run that does not keep going writes its artifact exactly if nothing but taken names is
reported; the artifact then has a template of every input, of a taken name the first. In
any other case no file changes.
-/

namespace Stencil

/-- Whether the name of a template is reported as taken. -/
def Diagnostic.isDuplicate : Diagnostic → Bool
  | duplicate _ _ => true
  | _ => false

theorem Diagnostic.isDuplicate_of_file? {d : Diagnostic} (h : d.file? = none) :
    d.isDuplicate = false := by
  cases d with
  | duplicate file name => cases h
  | _ => rfl

namespace Batch

/-! ## Firsts -/

/-- The entry of a template in an artifact. -/
def entryOf (compiled : Path × CompiledTemplate) : String × CompiledTemplate :=
  (compiled.1.templateName, compiled.2)

/-- `kept` has of `entries` the first of every name, in their order. -/
structure Firsts (kept entries : Bundle) : Prop where
  sublist : kept.Sublist entries
  distinct : (kept.map Prod.fst).Nodup
  lookup : ∀ name, kept.lookup name = entries.lookup name

namespace Firsts

variable {kept entries : Bundle} {name : String}

theorem nil : Firsts [] [] := ⟨.slnil, .nil, fun _ => rfl⟩

theorem taken (h : Firsts kept entries) (t : CompiledTemplate)
    (taken : (kept.lookup name).isSome) : Firsts kept (entries ++ [(name, t)]) where
  sublist := h.sublist.trans (List.sublist_append_left entries _)
  distinct := h.distinct
  lookup other := by
    rw [List.lookup_append, ← h.lookup other]
    by_cases same : other = name
    · subst same
      rw [Option.or_of_isSome taken]
    · simp [List.lookup_cons, beq_eq_false_iff_ne.2 same]

theorem free (h : Firsts kept entries) (t : CompiledTemplate) (free : kept.lookup name = none) :
    Firsts (kept ++ [(name, t)]) (entries ++ [(name, t)]) where
  sublist := h.sublist.append_right _
  distinct := by
    rw [List.lookup_eq_none_iff] at free
    rw [List.map_append, List.nodup_append]
    refine ⟨h.distinct, by simp, ?_⟩
    rintro _ mem _ here rfl
    obtain ⟨entry, inside, same⟩ := List.mem_map.1 mem
    have other := free entry inside
    simp_all
  lookup other := by rw [List.lookup_append, List.lookup_append, h.lookup]

end Firsts

/-! ## Discovering -/

/-- Discovery reports patterns, never an input. -/
theorem ofPatterns_file? (files : Files Id) (patterns : List String) :
    ∀ d ∈ (Discovery.ofPatterns files patterns).run.diagnostics, d.file? = none := by
  intro d mem
  obtain ⟨pattern, rfl | ⟨fault, rfl⟩⟩ := Discovery.ofPatterns_diagnostics patterns d mem <;> rfl

/-! ## Compiling -/

theorem compileFile_file (files : Files Id) (config : Config) (file : Path) :
    (compileFile files config file).run.file = file := by
  change (match files.readText file with | .error _ => _ | .ok _ => _ : Outcome).file = file
  cases files.readText file <;> rfl

/-- A file fails for its own sake, not for that of another. -/
theorem compileFile_error {files : Files Id} {config : Config} {file : Path} {d : Diagnostic}
    (h : (compileFile files config file).run.result = .error d) :
    (∃ e, d = .unreadable file e) ∨ ∃ e, d = .malformed file e := by
  change (match files.readText file with | .error _ => _ | .ok _ => _ : Outcome).result = _ at h
  cases read : files.readText file with
  | error e =>
      rw [read] at h
      cases h
      exact .inl ⟨e, rfl⟩
  | ok text =>
      rw [read] at h
      dsimp only at h
      cases compiled : ((compileSource config { name := file.text, text }).run
          { name := file.text }).1 with
      | error e =>
          rw [compiled] at h
          cases h
          exact .inr ⟨e, rfl⟩
      | ok t =>
          rw [compiled] at h
          cases h

/-! ## Gathering -/

/-- What a report says after outcomes that have not ended the run. -/
structure Gathered (outcomes : List Outcome) (compiled : List (Path × CompiledTemplate))
    (r : Report) : Prop where
  outcomes : outcomes.map (fun o => (o.file, o.result)) = compiled.map fun c => (c.1, .ok c.2)
  duplicates : ∀ d ∈ r.diagnostics, d.isDuplicate = true
  templates : Firsts r.templates (compiled.map entryOf)
  complete : r.diagnostics = [] → r.templates = compiled.map entryOf
  /-- A name is taken by a template. -/
  silent : r.templates = [] → r.diagnostics = []

/-- A template is gathered, unless its name is taken; then that is reported. -/
theorem Gathered.step {before : List Outcome} {compiled : List (Path × CompiledTemplate)}
    {r : Report} (h : Gathered before compiled r) {o : Outcome} {t : CompiledTemplate}
    (result : o.result = .ok t) (more : List Outcome) :
    ∃ r', r.gather false (o :: more) = r'.gather false more ∧
      Gathered (before ++ [o]) (compiled ++ [(o.file, t)]) r' := by
  have outcomes : (before ++ [o]).map (fun o => (o.file, o.result)) =
      (compiled ++ [(o.file, t)]).map fun c => (c.1, .ok c.2) := by
    simp [h.outcomes, result]
  have entries : (compiled ++ [(o.file, t)]).map entryOf =
      compiled.map entryOf ++ [(o.file.templateName, t)] := by
    simp [entryOf]
  cases taken : r.templates.lookup o.file.templateName with
  | some old =>
      let d := Diagnostic.duplicate o.file o.file.templateName
      refine ⟨r.addDiagnostic d, ?_, outcomes, ?_, ?_, ?_, ?_⟩
      · simp [Report.gather, result, taken, d]
      · intro d mem
        rcases List.mem_append.1 mem with before | here
        · exact h.duplicates d before
        · rw [List.mem_singleton.1 here]
          rfl
      · rw [entries]
        exact h.templates.taken t (by rw [taken]; rfl)
      · intro none_reported
        simp [Report.addDiagnostic] at none_reported
      · intro empty
        rw [show r.templates = [] from empty] at taken
        cases taken
  | none =>
      refine ⟨r.addTemplate o.file t, ?_, outcomes, h.duplicates, ?_, ?_, ?_⟩
      · simp [Report.gather, result, taken]
      · rw [entries]
        exact h.templates.free t taken
      · intro none_reported
        rw [entries, Report.addTemplate, h.complete none_reported]
      · intro empty
        simp [Report.addTemplate] at empty

/-- Either an outcome ends the run and is reported, or all are gathered. -/
theorem gather_once (outcomes : List Outcome) : ∀ before compiled (r : Report),
    Gathered before compiled r →
      (∃ r', r.gather false outcomes = .error r' ∧
        ∃ o ∈ outcomes, ∃ d ∈ r'.diagnostics, o.result = .error d) ∨
      ∃ r' all, r.gather false outcomes = .ok r' ∧ Gathered (before ++ outcomes) all r' := by
  induction outcomes with
  | nil =>
      intro before compiled r h
      exact .inr ⟨r, compiled, rfl, by rwa [List.append_nil]⟩
  | cons o outcomes ih =>
      intro before compiled r h
      cases result : o.result with
      | error d =>
          have ended : r.gather false (o :: outcomes) = .error (r.addDiagnostic d) := by
            simp [Report.gather, result]
          exact .inl ⟨_, ended, o, by simp, d, by simp [Report.addDiagnostic], result⟩
      | ok t =>
          obtain ⟨r', same, gathered⟩ := h.step result outcomes
          rw [same]
          rcases ih _ _ r' gathered with
            ⟨r'', ended, o', mem, reported⟩ | ⟨r'', all, ended, rest⟩
          · exact .inl ⟨r'', ended, o', List.mem_cons_of_mem o mem, reported⟩
          · rw [List.append_assoc] at rest
            exact .inr ⟨r'', all, ended, rest⟩

/-! ## The run -/

/-- The inputs of a run. -/
def discovered (o : Options) (t : FileTree) : Discovery :=
  (Discovery.ofPatterns t.files o.inputs).run

/-- What comes of an input. -/
def outcomeOf (o : Options) (t : FileTree) (file : Path) : Outcome :=
  (compileFile t.files o.effectiveConfig file).run

/-- The report of a run that has compiled its inputs. -/
def begun (o : Options) (t : FileTree) : Report where
  diagnostics := (discovered o t).diagnostics
  log := (((discovered o t).files.map (outcomeOf o t)).map Outcome.log).flatten

theorem plan_eq (o : Options) (t : FileTree) : (plan t.files o).run =
    if !o.keepGoing && !(discovered o t).diagnostics.isEmpty then
      { report := { diagnostics := (discovered o t).diagnostics } }
    else
      planOf o ((begun o t).gather o.keepGoing ((discovered o t).files.map (outcomeOf o t))) := by
  have outcomes : (discovered o t).files.mapM (compileFile t.files o.effectiveConfig) =
      (discovered o t).files.map (outcomeOf o t) := List.idRun_mapM
  rw [begun, ← outcomes]
  unfold plan
  simp only [Id.run_bind]
  change (if !o.keepGoing && !(discovered o t).diagnostics.isEmpty then _ else _ : Id Plan).run = _
  split <;> rfl

theorem plan_once_eq (o : Options) (t : FileTree) (once : o.keepGoing = false) :
    (plan t.files o).run =
      if (discovered o t).diagnostics.isEmpty then
        planOf o ((begun o t).gather false ((discovered o t).files.map (outcomeOf o t)))
      else { report := { diagnostics := (discovered o t).diagnostics } } := by
  rw [plan_eq, once]
  cases (discovered o t).diagnostics.isEmpty <;> rfl

/-- What an artifact holds that is written for these inputs. -/
structure Complete (o : Options) (t : FileTree) (files : List Path) (r : Report) : Prop where
  duplicates : ∀ d ∈ r.diagnostics, d.isDuplicate = true
  templates : ∃ compiled : List (Path × CompiledTemplate), compiled.map Prod.fst = files ∧
    (∀ c ∈ compiled, (outcomeOf o t c.1).result = .ok c.2) ∧
    Firsts r.templates (compiled.map entryOf) ∧
    (r.diagnostics = [] → r.templates = compiled.map entryOf)

theorem Gathered.toComplete {o : Options} {t : FileTree} {files : List Path}
    {compiled : List (Path × CompiledTemplate)} {r : Report}
    (h : Gathered (files.map (outcomeOf o t)) compiled r) : Complete o t files r := by
  refine ⟨h.duplicates, compiled, ?_, ?_, h.templates, h.complete⟩
  · have same := congrArg (List.map Prod.fst) h.outcomes
    simpa [Function.comp_def, outcomeOf, compileFile_file] using same.symm
  · intro c mem
    have inside : (c.1, Except.ok c.2) ∈
        (files.map (outcomeOf o t)).map fun o => (o.file, o.result) := by
      rw [h.outcomes]
      exact List.mem_map_of_mem (f := fun c => (c.1, Except.ok c.2)) mem
    rw [List.map_map] at inside
    obtain ⟨file, -, same⟩ := List.mem_map.1 inside
    obtain ⟨named, result⟩ := Prod.mk.inj same
    rw [outcomeOf, compileFile_file] at named
    rwa [← named]

/-- A plan writes an artifact with everything, or reports more than taken names. -/
theorem plan_once (o : Options) (t : FileTree) (once : o.keepGoing = false) :
    ((plan t.files o).run.artifact = none ∧
      ∃ d ∈ (plan t.files o).run.report.diagnostics, d.isDuplicate = false) ∨
    ((plan t.files o).run.artifact = some ⟨o.outDir, o.output,
        artifactText o.format (plan t.files o).run.report.templates⟩ ∧
      Complete o t (discovered o t).files (plan t.files o).run.report) := by
  rw [plan_once_eq o t once]
  cases none_reported : (discovered o t).diagnostics.isEmpty with
  | false =>
      left
      rw [List.isEmpty_eq_false_iff] at none_reported
      obtain ⟨d, mem⟩ := List.exists_mem_of_ne_nil _ none_reported
      exact ⟨rfl, d, mem, Diagnostic.isDuplicate_of_file? (ofPatterns_file? t.files o.inputs d mem)⟩
  | true =>
      rw [if_pos rfl]
      have silent : (begun o t).diagnostics = [] := List.isEmpty_iff.1 none_reported
      have start : Gathered [] [] (begun o t) :=
        ⟨rfl, by rw [silent]; nofun, .nil, fun _ => rfl, fun _ => silent⟩
      rcases gather_once ((discovered o t).files.map (outcomeOf o t)) [] [] _ start with
        ⟨r, ended, failed, mem, d, reported, result⟩ | ⟨r, compiled, ended, gathered⟩
      · left
        obtain ⟨file, -, rfl⟩ := List.mem_map.1 mem
        rw [ended]
        refine ⟨rfl, d, reported, ?_⟩
        obtain ⟨e, rfl⟩ | ⟨e, rfl⟩ := compileFile_error result <;> rfl
      · rw [ended, planOf]
        cases empty : r.templates.isEmpty with
        | true =>
            left
            have silent := gathered.silent (List.isEmpty_iff.1 empty)
            rw [if_pos rfl, silent]
            exact ⟨rfl, .nothingToCompile, by simp [Report.addDiagnostic], rfl⟩
        | false =>
            right
            exact ⟨rfl, gathered.toComplete⟩

open FileTree (SameFiles Sparing Stores storage write_run)

/-- An artifact is stored under the path of its file, or no file changes and the cause is
reported. -/
theorem save_run (a : Artifact) (t : FileTree) :
    (∃ d t', (save storage a).run t = (.error d, t') ∧ d.file? = none ∧
        SameFiles t t') ∨
      ∃ t', (save storage a).run t = (.ok (), t') ∧ Stores t a.file a.text.toUTF8 t' := by
  have created := Sparing.createDirectories a.directory t
  have run : (save storage a).run t =
      match (storage.createDirectories a.directory).run t with
      | (.error e, between) => (.error (.notCreated a.directory e), between)
      | (.ok (), between) =>
          (((storage.write a.file a.text).run between).1.mapError (.notWritten a.file),
            ((storage.write a.file a.text).run between).2) := by
    unfold save
    rw [StateT.run_bind]
    cases (storage.createDirectories a.directory).run t with
    | mk answer between => cases answer <;> rfl
  rw [run]
  revert created
  cases (storage.createDirectories a.directory).run t with
  | mk answer between =>
      intro created
      cases answer with
      | error e => exact .inl ⟨_, between, rfl, rfl, created⟩
      | ok =>
          dsimp only
          rcases write_run a.file a.text between with ⟨e, refused⟩ | ⟨t', done, stored⟩
          · rw [refused]
            exact .inl ⟨_, between, rfl, rfl, created⟩
          · rw [done]
            exact .inr ⟨t', rfl, created.stores stored⟩

/-- The report of a run that has written an artifact. -/
def Report.written (r : Report) (file : Path) : Report :=
  { r with log := r.log ++
      [⟨.info, "Compiled " ++ toString r.templates.length ++ " templates into " ++ file.text⟩] }

theorem finish_none {p : Plan} (h : p.artifact = none) (t : FileTree) :
    (finish storage p).run t = ({ report := p.report }, t) := by
  rw [finish, h]
  rfl

theorem finish_some {p : Plan} {a : Artifact} (h : p.artifact = some a) (t : FileTree) :
    (finish storage p).run t = match (save storage a).run t with
      | (.error d, t') => ({ report := p.report.addDiagnostic d }, t')
      | (.ok (), t') => ({ report := p.report.written a.file, output := some a.file }, t') := by
  rw [finish, h]
  dsimp only
  rw [StateT.run_bind]
  cases (save storage a).run t with
  | mk answer t' => cases answer <;> rfl

/-- What holds when a run has written its artifact. -/
structure Written (o : Options) (t : FileTree) (file : Path) (r : Report) (t' : FileTree) : Prop
    extends Complete o t (discovered o t).files r where
  output : file = o.output
  stored : Stores t file (artifactText o.format r.templates).toUTF8 t'

/-- A run that does not keep going is all or nothing: with nothing but taken names to report
it writes the templates of all inputs, of a taken name the first, and changes no other
file; with anything else it reports that and changes no file. -/
theorem perform_once (o : Options) (t : FileTree) (once : o.keepGoing = false) :
    match (perform o t).1.output with
    | some file => Written o t file (perform o t).1.report (perform o t).2
    | none => (∃ d ∈ (perform o t).1.report.diagnostics, d.isDuplicate = false) ∧
        SameFiles t (perform o t).2 := by
  have ran : perform o t = (finish storage (plan t.files o).run).run t := rfl
  rw [ran]
  rcases plan_once o t once with ⟨nothing, reported⟩ | ⟨artifact, complete⟩
  · rw [finish_none nothing]
    exact ⟨reported, .refl t⟩
  · rw [finish_some artifact]
    rcases save_run ⟨o.outDir, o.output,
        artifactText o.format (plan t.files o).run.report.templates⟩ t with
      ⟨d, t', refused, other, same⟩ | ⟨t', done, stored⟩
    · rw [refused]
      exact ⟨⟨d, by simp [Report.addDiagnostic], Diagnostic.isDuplicate_of_file? other⟩, same⟩
    · rw [done]
      exact { complete with output := rfl, stored := stored }

/-- An artifact is written exactly if nothing but taken names is reported. -/
theorem output_isSome_iff (o : Options) (t : FileTree) (once : o.keepGoing = false) :
    (perform o t).1.output.isSome ↔
      ∀ d ∈ (perform o t).1.report.diagnostics, d.isDuplicate = true := by
  have run := perform_once o t once
  cases output : (perform o t).1.output with
  | some file =>
      rw [output] at run
      exact ⟨fun _ => run.duplicates, fun _ => rfl⟩
  | none =>
      rw [output] at run
      obtain ⟨⟨d, mem, other⟩, -⟩ := run
      constructor
      · intro written
        cases written
      · intro all
        rw [all d mem] at other
        cases other

/-- A run that ends well has written a template of every input. -/
theorem written_of_exitCode (o : Options) (t : FileTree) (once : o.keepGoing = false)
    (well : (perform o t).1.exitCode = 0) :
    Written o t o.output (perform o t).1.report (perform o t).2 ∧
      (perform o t).1.report.templates.map Prod.fst =
        (discovered o t).files.map Path.templateName := by
  have silent : (perform o t).1.report.diagnostics = [] := by
    rw [Result.exitCode] at well
    split at well
    · exact List.isEmpty_iff.1 ‹_›
    · cases well
  have run := perform_once o t once
  cases output : (perform o t).1.output with
  | none =>
      rw [output] at run
      obtain ⟨⟨d, mem, -⟩, -⟩ := run
      rw [silent] at mem
      cases mem
  | some file =>
      rw [output] at run
      obtain ⟨compiled, inputs, -, -, all⟩ := run.templates
      have named : (perform o t).1.report.templates.map Prod.fst =
          (discovered o t).files.map Path.templateName := by
        rw [all silent, ← inputs, List.map_map, List.map_map]
        rfl
      exact ⟨run.output ▸ run, named⟩

end Batch

end Stencil
