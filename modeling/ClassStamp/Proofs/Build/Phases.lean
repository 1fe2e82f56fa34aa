import ClassStamp.Build.Step
import ClassStamp.Proofs.Run.Completion

/-!
# Missing directories of classes

A build step leaves out a phase whose directory of classes is not there. The
other phase does not notice, with one exception: the main directory is on the
classpath of the test classes, and a classpath with a missing directory is
refused, so that test classes cannot be processed without main classes.

* `Carried`: the runs of a build step, one for each directory that is there;
* `Config.Stranded`: there are test classes but no main directory;
* `step_carries`: the main result.
-/

namespace ClassStamp.Build

open FileTree (Settled)

variable {task : Task} {transformers : List Transformer} {ambient : List Path}

/-! ## Runs of one phase -/

/-- A run whose directories are all there comes to its end. -/
theorem Task.run_of_directories (task : Task) {config : Run.Config} {files : FileTree}
    {input : Path} (htransformers : transformers ≠ []) (hinput : config.input = some input)
    (hroot : files.isDirectory input = true)
    (hentries : ∀ e ∈ config.entries input ambient, e.check files = .ok ())
    (houtput : ∀ output, config.output = some output → files.isDirectory output = true) :
    ∃ report, (task.run config transformers ambient files).report = .ok report ∧
      Settled files (task.run config transformers ambient files).files := by
  cases task with
  | transform =>
    exact Run.run_of_directories Run.settled_transform htransformers hinput hroot hentries houtput
  | unstamp =>
    exact Run.run_of_directories Run.settled_unstamp htransformers hinput hroot hentries houtput

/-- A run without input has nothing to do. -/
theorem Task.run_of_no_input (task : Task) {config : Run.Config} (files : FileTree)
    (hinput : config.inputDirectory? = none) :
    task.run config transformers ambient files = { report := .ok .empty, files, log := [] } := by
  cases task <;> exact Run.run_of_no_input hinput

/-- A run over a directory whose classpath is refused fails. -/
theorem Task.run_of_refused (task : Task) {config : Run.Config} {files : FileTree} {input : Path}
    {e : ResolutionError} (htransformers : transformers ≠ [])
    (hinput : config.inputDirectory? = some input) (hroot : files.isDirectory input = true)
    (hrefused : Classpath.Context.build files (config.entries input ambient) = .error e) :
    task.run config transformers ambient files =
      { report := .error (.context e), files, log := [] } := by
  have hs : Run.setUp config transformers ambient files = .error (.context e) files := by
    unfold Run.setUp
    cases transformers with
    | nil => exact absurd rfl htransformers
    | cons t transformers =>
      rw [hinput]
      dsimp only
      rw [Run.checkRoot_eq_ok_iff.2 hroot]
      dsimp only
      rw [hrefused]
  have hrun (step : Run.Pass → ClassName → Run.State → Run.State) :
      Run.run step config transformers ambient files =
        { report := .error (.context e), files, log := [] } := by rw [Run.run, hs]
  cases task
  · exact hrun Run.State.transform
  · exact hrun Run.State.unstamp

section Phase

variable {phase : Phase} {config : Run.Config} {files : FileTree} {input : Path}

/-- A phase whose directory is not there is left out. -/
theorem runPhase_of_missing (hinput : config.input = some input)
    (hroot : files.isDirectory input = false) :
    runPhase task transformers ambient phase config files = .ok .empty files := by
  unfold runPhase
  split
  · rfl
  · rename_i found hfound
    rw [Run.Config.inputDirectory?, hinput, Option.filter_eq_some_iff] at hfound
    cases hfound.1
    rw [if_neg (by rw [hroot]; exact Bool.false_ne_true)]

/-- A phase whose directory is there is its run. -/
theorem runPhase_of_isDirectory (hinput : config.input = some input)
    (hroot : files.isDirectory input = true) :
    runPhase task transformers ambient phase config files =
      let result := task.run config transformers ambient files
      match result.report with
      | .ok report => .ok report result.files
      | .error e => .error (.run phase e) result.files := by
  unfold runPhase
  split
  · rename_i hnone
    rw [task.run_of_no_input files hnone]
  · rename_i found hfound
    rw [Run.Config.inputDirectory?, hinput, Option.filter_eq_some_iff] at hfound
    cases hfound.1
    exact if_pos hroot

end Phase

/-! ## Phases one after the other -/

/-- Some phases are carried out one after the other: a phase whose directory of
classes is there when its turn comes is run and adds its report, and one whose
directory is not there is left out. -/
inductive Carried (task : Task) (transformers : List Transformer) (ambient : List Path) :
    List (Phase × Run.Config) → FileTree → List Run.Report → FileTree → Prop
  | done (files : FileTree) : Carried task transformers ambient [] files [] files
  | leftOut {phase : Phase} {config : Run.Config} {rest : List (Phase × Run.Config)}
      {files after : FileTree} {reports : List Run.Report} {input : Path} :
      config.input = some input → files.isDirectory input = false →
      Carried task transformers ambient rest files reports after →
      Carried task transformers ambient ((phase, config) :: rest) files reports after
  | runs {phase : Phase} {config : Run.Config} {rest : List (Phase × Run.Config)}
      {files after : FileTree} {reports : List Run.Report} {input : Path} {report : Run.Report} :
      config.input = some input → files.isDirectory input = true →
      (task.run config transformers ambient files).report = .ok report →
      Carried task transformers ambient rest
        (task.run config transformers ambient files).files reports after →
      Carried task transformers ambient ((phase, config) :: rest) files (report :: reports) after

/-- The report of some runs, one after the other. -/
def mergeAll (reports : List Run.Report) : Run.Report := reports.foldr Run.Report.merge .empty

theorem merge_empty_left (r : Run.Report) : Run.Report.empty.merge r = r := by
  simp only [Run.Report.merge, Run.Report.empty, Nat.zero_add, List.nil_append]

theorem runPhases_cons (phase : Phase) (config : Run.Config) (rest : List (Phase × Run.Config))
    (files : FileTree) :
    runPhases task transformers ambient ((phase, config) :: rest) files =
      match runPhase task transformers ambient phase config files with
      | .error e files => .error e files
      | .ok report files => match runPhases task transformers ambient rest files with
        | .error e files => .error e files
        | .ok later files => .ok (report.merge later) files := by
  rw [runPhases]
  simp only [bind, EStateM.bind]
  cases runPhase task transformers ambient phase config files with
  | error e files => rfl
  | ok report files =>
    dsimp only
    cases runPhases task transformers ambient rest files <;> rfl

/-- Phases that are carried out give one report after the other. -/
theorem Carried.runPhases_eq {phases : List (Phase × Run.Config)} {files after : FileTree}
    {reports : List Run.Report} (h : Carried task transformers ambient phases files reports after) :
    runPhases task transformers ambient phases files = .ok (mergeAll reports) after := by
  induction h with
  | done files => rfl
  | leftOut hinput hroot _ ih =>
    rw [runPhases_cons, runPhase_of_missing hinput hroot]
    dsimp only
    rw [ih]
    dsimp only
    rw [merge_empty_left]
  | runs hinput hroot hreport _ ih =>
    rw [runPhases_cons, runPhase_of_isDirectory hinput hroot]
    dsimp only
    rw [hreport]
    dsimp only
    rw [ih]
    rfl

/-! ## Build steps -/

/-- There are test classes that need main classes, but the directory of the main
classes is not there. -/
structure Config.Stranded (c : Config) (files : FileTree) : Prop where
  included : c.includeTestClasses = true
  given : c.testBuildDirectory.isBlank = false
  test : files.isDirectory c.testBuildDirectory = true
  main : files.isDirectory c.buildDirectory = false

/-- Whoever asks for transformers gets as many. -/
theorem prepare_ne_nil {config : Config} {registry : Registry}
    (h : prepare config registry = .ok transformers) : transformers ≠ [] := by
  unfold prepare at h
  obtain ⟨_, hvalid, hmade⟩ := except_bind_eq_ok h
  rintro rfl
  cases hall : registry.instantiateAll config.transformers with
  | error e =>
    rw [hall] at hmade
    cases hmade
  | ok made =>
    rw [hall] at hmade
    cases hmade
    have hnone := List.forall₂_nil_right_iff.1 (mapM_eq_ok_iff.1 hall)
    rw [Config.validate, if_pos hnone] at hvalid
    cases hvalid

section Step

variable {config : Config} {registry : Registry} {files : FileTree}

/-- The run over the main classes comes to its end. -/
theorem main_runs (task : Task) (htransformers : transformers ≠ [])
    (houtput : ∀ output, config.outputDirectory = some output → files.isDirectory output = true)
    (hroot : files.isDirectory config.buildDirectory = true) :
    let main := { Run.Config.new config.buildDirectory with output := config.outputDirectory }
    ∃ report, (task.run main transformers ambient files).report = .ok report ∧
      Settled files (task.run main transformers ambient files).files := by
  exact task.run_of_directories htransformers rfl hroot
    (Run.Config.check_entries hroot (List.forall_mem_nil _)) houtput

/-- The run over the test classes comes to its end if the main directory is
there. -/
theorem test_runs (task : Task) (htransformers : transformers ≠ [])
    (hmain : files.isDirectory config.buildDirectory = true)
    (hroot : files.isDirectory config.testBuildDirectory = true) :
    let test :=
      { Run.Config.new config.testBuildDirectory with classpath := [config.buildDirectory] }
    ∃ report, (task.run test transformers ambient files).report = .ok report ∧
      Settled files (task.run test transformers ambient files).files := by
  exact task.run_of_directories htransformers rfl hroot
    (Run.Config.check_entries hroot (List.forall_mem_singleton.2 hmain)) fun output h => nomatch h

/-- Without the main directory the run over the test classes fails. -/
theorem test_refused (task : Task) (htransformers : transformers ≠ [])
    (h : config.Stranded files) :
    let test :=
      { Run.Config.new config.testBuildDirectory with classpath := [config.buildDirectory] }
    ∃ problem, task.run test transformers ambient files =
      { report := .error (.context (.invalidEntry config.buildDirectory problem)), files,
        log := [] } := by
  obtain ⟨problem, hproblem⟩ := Classpath.checkDirectory_of_not_isDirectory h.main
  refine ⟨problem, task.run_of_refused htransformers ?_ h.test ?_⟩
  · rw [Run.Config.inputDirectory?, Run.Config.new, Option.filter_some, h.given]
    rfl
  · have htest := Classpath.checkDirectory_of_isDirectory h.test
    simp only [Classpath.Context.build, Run.Config.entries, Run.Config.new, List.map_cons,
      List.map_nil, List.cons_append, List.forM_eq_forM, List.forM_cons, Classpath.Entry.check,
      htest, hproblem]
    rfl

/-- All phases can be carried out, unless there are test classes without a main
directory. -/
theorem phases_carried (task : Task) (htransformers : transformers ≠ [])
    (houtput : ∀ output, config.outputDirectory = some output → files.isDirectory output = true)
    (hmain : ¬ config.Stranded files) :
    ∃ reports after, Carried task transformers ambient config.phases files reports after := by
  have htest : ∀ files', (config.includeTestClasses = true →
      files'.isDirectory config.testBuildDirectory = true →
      ∃ report, (task.run { Run.Config.new config.testBuildDirectory with
        classpath := [config.buildDirectory] } transformers ambient files').report = .ok report) →
      ∃ reports after,
        Carried task transformers ambient config.phases.tail files' reports after := by
    intro files' hruns
    rw [Config.phases, List.tail_cons]
    cases hincluded : config.includeTestClasses with
    | false => exact ⟨[], files', .done files'⟩
    | true =>
      rw [if_pos rfl]
      cases hthere : files'.isDirectory config.testBuildDirectory with
      | false => exact ⟨[], files', .leftOut rfl hthere (.done files')⟩
      | true =>
        obtain ⟨report, hreport⟩ := hruns hincluded hthere
        exact ⟨[report], _, .runs rfl hthere hreport (.done _)⟩
  cases hthere : files.isDirectory config.buildDirectory with
  | true =>
    obtain ⟨report, hreport, hsettled⟩ := main_runs task htransformers houtput hthere
    obtain ⟨reports, after, hrest⟩ := htest _ fun _ hroot =>
      (test_runs task htransformers (FileTree.isDirectory_of_settled hsettled hthere)
        hroot).imp fun _ => And.left
    exact ⟨report :: reports, after, .runs rfl hthere hreport hrest⟩
  | false =>
    obtain ⟨reports, after, hrest⟩ := htest files fun hincluded hroot => by
      -- nothing is stranded, so that the directory counts as not given
      have hblank : config.testBuildDirectory.isBlank = true := by
        by_contra hgiven
        exact hmain ⟨hincluded, eq_false_of_ne_true hgiven, hroot, hthere⟩
      refine ⟨.empty, ?_⟩
      rw [task.run_of_no_input files]
      rw [Run.Config.inputDirectory?, Run.Config.new, Option.filter_some, hblank]
      rfl
    exact ⟨reports, after, .leftOut rfl hthere hrest⟩

/-- A build step whose directories are there or left out, and whose output
directory, if it has one, is there, carries its phases out and gives their
reports one after the other. Only test classes without a main directory make it
fail, before anything changed. -/
theorem step_carries (task : Task) (ambient : Ambient) (hskip : config.skip = false)
    (hprepare : prepare config registry = .ok transformers)
    (houtput : ∀ output, config.outputDirectory = some output → files.isDirectory output = true) :
    let r := step task config registry ambient files
    (¬ config.Stranded files → ∃ reports,
      Carried task transformers (ambient.paths ++ config.classpath) config.phases files reports
        r.files ∧ r.report = .ok (mergeAll reports)) ∧
    (config.Stranded files → ∃ problem,
      r.report = .error (.run .test (.context (.invalidEntry config.buildDirectory problem))) ∧
        r.files = files) := by
  have htransformers := prepare_ne_nil hprepare
  dsimp only [step, Ambient.extend]
  rw [hskip, hprepare, if_neg Bool.false_ne_true]
  dsimp only
  refine ⟨fun hmain => ?_, fun hstranded => ?_⟩
  · obtain ⟨reports, after, hcarried⟩ := phases_carried task htransformers houtput hmain
    rw [hcarried.runPhases_eq]
    exact ⟨reports, hcarried, rfl⟩
  · obtain ⟨problem, hrefused⟩ := test_refused task htransformers hstranded
    refine ⟨problem, ?_⟩
    rw [Config.phases, hstranded.included, if_pos rfl, runPhases_cons,
      runPhase_of_missing rfl hstranded.main]
    dsimp only
    rw [runPhases_cons, runPhase_of_isDirectory rfl hstranded.test, hrefused]
    exact ⟨rfl, rfl⟩

end Step

/-- A project whose classes are to be marked. -/
def markedProject : Config :=
  { Config.default with
    buildDirectory := ⟨"classes"⟩
    testBuildDirectory := ⟨"test-classes"⟩
    transformers := [{ name := "marker-field", settings := .empty }] }

/-- Without test classes the main class is marked. -/
theorem marked_project_carries :
    let r := step .transform markedProject .builtin ⟨[]⟩ Run.plainFiles
    r.report.map (fun report => report.outcomes.map (·.state)) = .ok [.written] ∧
      ∃ reports, Carried .transform [MarkerField.default.transformer] [] markedProject.phases
        Run.plainFiles reports r.files ∧ r.report = .ok (mergeAll reports) := by
  have hprepare : prepare markedProject .builtin = .ok [MarkerField.default.transformer] := rfl
  have houtput : ∀ output, markedProject.outputDirectory = some output →
      Run.plainFiles.isDirectory output = true := fun output h => nomatch h
  have hmain : ¬ markedProject.Stranded Run.plainFiles := fun h =>
    absurd h.main (by decide +kernel)
  exact ⟨by decide +kernel, (step_carries .transform ⟨[]⟩ rfl hprepare houtput).1 hmain⟩

/-- A directory of test classes with the class `A`. -/
def testFiles : FileTree :=
  { workingDirectory := ["work"],
    root := [("work", .directory
      [("test-classes", .directory [("A.class", .file Run.plainBytes)])])] }

/-- Without the main directory the directory of the test classes cannot be
processed. -/
theorem test_classes_stranded :
    markedProject.skip = false ∧ markedProject.outputDirectory = none ∧
      prepare markedProject .builtin = .ok [MarkerField.default.transformer] ∧
      testFiles.find ⟨"classes"⟩ = .error .notFound ∧
      testFiles.isDirectory ⟨"test-classes"⟩ = true ∧
      ∀ task, (step task markedProject .builtin ⟨[]⟩ testFiles).report =
        .error (.run .test (.context (.invalidEntry ⟨"classes"⟩
          "No such file or directory (os error 2)"))) := by
  refine ⟨rfl, rfl, rfl, rfl, by decide +kernel, fun task => ?_⟩
  cases task <;> rfl

end ClassStamp.Build
