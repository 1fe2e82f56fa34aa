import ClassStamp.Proofs.Run.Exits
import ClassStamp.Proofs.Run.History

/-!
# Runs that come to their end

A run fails only before its first step: steps leave every directory where it
is, whatever a transformer does, so that each pass finds the input. It can be
set up if its directories are there.

* `keeps_transform`: what becomes of the files in a step, from what becomes of them
  when one class is written;
* `settled_transform`, `settled_unstamp`: no step removes anything;
* `passOver_of_settled`: the passes come to their end;
* `run_of_directories`: the main result, and `run_again`: a run that is done again.
-/

namespace ClassStamp

open FileTree (Settled)

namespace Classpath

theorem checkDirectory_of_isDirectory {files : FileTree} {root : Path}
    (h : files.isDirectory root = true) : checkDirectory files root = .ok () := by
  obtain ⟨place, entries, hf⟩ := FileTree.isDirectory_iff.1 h
  rw [checkDirectory, hf]

/-- What is not a directory is refused. -/
theorem checkDirectory_of_not_isDirectory {files : FileTree} {root : Path}
    (h : files.isDirectory root = false) :
    ∃ problem, checkDirectory files root = .error (.invalidEntry root problem) := by
  unfold FileTree.isDirectory at h
  unfold checkDirectory
  cases hf : files.find root with
  | error e => exact ⟨_, rfl⟩
  | ok found =>
    obtain ⟨place, node⟩ := found
    cases node with
    | file content => exact ⟨_, rfl⟩
    | directory entries =>
      rw [hf] at h
      cases h

theorem isDirectory_of_checkDirectory {files : FileTree} {root : Path}
    (h : checkDirectory files root = .ok ()) : files.isDirectory root = true := by
  cases hroot : files.isDirectory root with
  | true => rfl
  | false =>
    obtain ⟨problem, herror⟩ := checkDirectory_of_not_isDirectory hroot
    rw [h] at herror
    cases herror

/-- An entry that can be used can be used later if nothing was removed. -/
theorem check_of_settled {files files' : FileTree} (h : Settled files files') {e : Entry}
    (he : e.check files = .ok ()) : e.check files' = .ok () := by
  cases e with
  | directory root =>
    exact checkDirectory_of_isDirectory
      (FileTree.isDirectory_of_settled h (isDirectory_of_checkDirectory he))
  | loader l => exact he
  | system roots => exact he

theorem forM_check_iff {files : FileTree} {entries : List Entry} :
    entries.forM (Entry.check files) = .ok () ↔ ∀ e ∈ entries, e.check files = .ok () := by
  induction entries with
  | nil => exact ⟨fun _ _ he => (nomatch he), fun _ => rfl⟩
  | cons e entries ih =>
    rw [List.forM_eq_forM, List.forM_cons, List.forall_mem_cons, ← ih]
    cases hcheck : e.check files with
    | error reason => exact ⟨(nomatch ·), fun h => (nomatch h.1)⟩
    | ok _ => exact ⟨fun h => ⟨rfl, h⟩, fun h => h.2⟩

/-- A context can be built over entries that can all be used. -/
theorem Context.build_of_check {files : FileTree} {entries : List Entry}
    (h : ∀ e ∈ entries, e.check files = .ok ()) :
    build files entries = .ok (.ofEntries entries) := by
  rw [build, forM_check_iff.2 h]
  rfl

/-- A context is built over entries that can all be used only. -/
theorem Context.check_of_build {files : FileTree} {entries : List Entry} {context : Context}
    (h : build files entries = .ok context) : ∀ e ∈ entries, e.check files = .ok () := by
  obtain ⟨_, hall, -⟩ := except_bind_eq_ok h
  exact forM_check_iff.1 hall

end Classpath

namespace Run

variable {files files' : FileTree} {config : Config} {transformers : List Transformer}
  {ambient : List Path} {input : Path}

theorem checkRoot_eq_ok_iff : checkRoot files input = .ok () ↔ files.isDirectory input = true := by
  rw [FileTree.isDirectory_iff]
  constructor
  · intro h
    unfold checkRoot at h
    split at h
    · cases h
    · cases h
    · rename_i place entries hf
      exact ⟨place, entries, hf⟩
  · rintro ⟨place, entries, hf⟩
    rw [checkRoot, hf]

/-! ## Steps -/

@[simp] theorem State.giveBack_files (s : State) (a : Artifact) :
    (s.giveBack a).files = s.files := rfl

section Files

variable {R : FileTree → FileTree → Prop} [IsPreorder FileTree R] {p : Pass}
  (hwrite : ∀ a files, R files (leaves p.output.write (a, files)).2)

include hwrite

theorem keeps_writeOne (s : State) (x : Artifact) : R s.files (s.writeOne p x).2.2.files := by
  unfold State.writeOne
  split
  · exact refl_of R s.files
  · rename_i b hstamped
    have hkept := hwrite b s.files
    split
    · rename_i hfailed
      rw [leaves_of_error hfailed] at hkept
      exact hkept
    · rename_i hwritten
      rw [leaves_of_ok hwritten] at hkept
      exact hkept

theorem keeps_writePending (xs : List Artifact) (s : State) :
    R s.files (State.writePending p xs s).2.2.files := by
  induction xs generalizing s with
  | nil => exact refl_of R s.files
  | cons x xs ih =>
    rw [State.writePending]
    split
    · exact trans_of R (keeps_writeOne hwrite s x) (ih _)
    · exact ih s

theorem keeps_writeNested {files : FileTree} {s : State} (pristine a : Artifact)
    (h : R files s.files) : R files (s.writeNested p pristine a).2.files := by
  have hkept := trans_of R h (keeps_writePending hwrite a.nested s)
  unfold State.writeNested
  dsimp only
  split <;> exact hkept

theorem keeps_apply (s : State) (n : ClassName) (a : Artifact) :
    R s.files (s.apply p n a).files := by
  unfold State.apply
  dsimp only
  split
  · exact refl_of R s.files
  split
  · exact refl_of R s.files
  rename_i c hstamped
  have hkept := hwrite c (s.call p .applied (State.prepare a).name).files
  split
  · rename_i hfailed
    rw [leaves_of_error hfailed] at hkept
    exact hkept
  · rename_i hwritten
    rw [leaves_of_ok hwritten] at hkept
    rw [State.giveBack_files]
    exact keeps_writeNested hwrite _ _ hkept

/-- What is kept of the files whenever a class is written, a step keeps, also where it
fails. -/
theorem keeps_transform (n : ClassName) (s : State) : R s.files (State.transform p n s).files := by
  have hsame : (s.takeOut p n).2.files = s.files := by
    unfold State.takeOut
    split <;> rfl
  unfold State.transform
  rw [← hsame]
  rcases s.takeOut p n with ⟨_ | a, s'⟩
  · exact refl_of R s'.files
  dsimp only
  split
  · exact refl_of R s'.files
  split
  · exact refl_of R s'.files
  · exact refl_of R s'.files
  · exact keeps_apply hwrite (s'.call p .checked a.name) n a

end Files

theorem settled_transform (p : Pass) (n : ClassName) (s : State) :
    Settled s.files (State.transform p n s).files :=
  keeps_transform p.output.settled_write n s

theorem settled_unstamp (p : Pass) (n : ClassName) (s : State) :
    Settled s.files (State.unstamp p n s).files := by
  rcases unstamp_cases p n s with ⟨o, h⟩ | ⟨a, b, c, context, file, files, h, heq⟩
  · exact h.files.toSettled
  · obtain ⟨-, -, -, -, hwritten, -⟩ := Output.write_eq_ok h.written
    rw [heq]
    exact hwritten

/-! ## Passes -/

section Passes

variable {step : Pass → ClassName → State → State}

/-- Passes whose steps remove nothing come to their end. -/
theorem passOver_of_settled (hstep : ∀ p n s, Settled s.files (step p n s).files)
    (passes : List Pass) {s : State} (h : s.files.isDirectory input = true) :
    ∃ s', passOver step input passes s = .ok () s' ∧ Settled s.files s'.files := by
  induction passes generalizing s with
  | nil => exact ⟨s, rfl, .refl s.files⟩
  | cons p passes ih =>
    have hkept : Settled s.files (sweep (step p) input s).2.files := by
      rw [sweep_steps]
      exact foldl_keeps (P := fun s' => Settled s.files s'.files)
        (fun s' n hs => hs.trans (hstep p n s')) _ (.refl s.files)
    rw [passOver_cons, checkRoot_eq_ok_iff.2 h]
    obtain ⟨s', hs', hsettled⟩ := ih (FileTree.isDirectory_of_settled hkept h)
    exact ⟨s', hs', hkept.trans hsettled⟩

/-! ## Runs -/

/-- A run without input has nothing to do. -/
theorem run_of_no_input (hinput : config.inputDirectory? = none) :
    run step config transformers ambient files = { report := .ok .empty, files, log := [] } := by
  have hs : setUp config transformers ambient files = .ok none files := by
    unfold setUp
    cases transformers with
    | nil => rfl
    | cons t transformers => rw [hinput]
  rw [run, hs]

/-- A run that is set up has transformers, a directory to walk over, entries that can be
used, and a directory for its results. -/
theorem setUp_parts {setup : Setup}
    (h : setUp config transformers ambient files = .ok (some setup) files') :
    transformers ≠ [] ∧ checkRoot files setup.input = .ok () ∧
      (∀ e ∈ config.entries setup.input ambient, e.check files = .ok ()) ∧
      prepareOutput setup.input (config.outputDirectory?.getD setup.input) files =
        .ok () files' := by
  unfold setUp at h
  split at h
  · cases h
  · cases h
  rename_i htransformers _
  split at h
  · cases h
  rename_i hroot
  split at h
  · cases h
  rename_i hbuild
  dsimp only at h
  split at h <;> cases h
  exact ⟨htransformers, hroot, Classpath.Context.check_of_build hbuild, by assumption⟩

theorem setUp_checks {setup : Setup}
    (h : setUp config transformers ambient files = .ok (some setup) files') :
    checkRoot files setup.input = .ok () ∧
      ∀ e ∈ config.entries setup.input ambient, e.check files = .ok () :=
  have ⟨_, hroot, hchecks, _⟩ := setUp_parts h
  ⟨hroot, hchecks⟩

/-- A run can be set up, without touching anything, if what it reads is there and the
directory for its results needs no work. -/
theorem setUp_of_prepared (htransformers : transformers ≠ [])
    (hinput : config.inputDirectory? = some input) (hroot : files.isDirectory input = true)
    (hentries : ∀ e ∈ config.entries input ambient, e.check files = .ok ())
    (hprepared : prepareOutput input (config.outputDirectory?.getD input) files =
      .ok () files) :
    setUp config transformers ambient files = .ok (some {
      input, output := ⟨config.outputDirectory?.getD input⟩
      context := .ofEntries (config.entries input ambient) }) files := by
  unfold setUp
  cases transformers with
  | nil => exact absurd rfl htransformers
  | cons t transformers =>
    rw [hinput]
    dsimp only
    rw [checkRoot_eq_ok_iff.2 hroot]
    dsimp only
    rw [Classpath.Context.build_of_check hentries]
    dsimp only
    rw [hprepared]

/-- A classpath of directories that are there can be used: the loader and the ambient roots
are asked only when a class is looked up. -/
theorem Config.check_entries (hroot : files.isDirectory input = true)
    (hclasspath : ∀ root ∈ config.classpath, files.isDirectory root = true) :
    ∀ e ∈ config.entries input ambient, e.check files = .ok () := by
  intro e he
  rw [Config.entries, List.cons_append, List.cons_append, List.mem_cons, List.mem_append,
    List.mem_append, List.mem_map, List.mem_map, List.mem_singleton] at he
  rcases he with rfl | (⟨root, hmem, rfl⟩ | ⟨l, -, rfl⟩) | rfl
  · exact Classpath.checkDirectory_of_isDirectory hroot
  · exact Classpath.checkDirectory_of_isDirectory (hclasspath root hmem)
  · rfl
  · rfl

/-- That is so if all its directories are there. -/
theorem setUp_of_directories (htransformers : transformers ≠ [])
    (hinput : config.inputDirectory? = some input) (hroot : files.isDirectory input = true)
    (hentries : ∀ e ∈ config.entries input ambient, e.check files = .ok ())
    (houtput : ∀ output, config.output = some output → files.isDirectory output = true) :
    setUp config transformers ambient files = .ok (some {
      input, output := ⟨config.outputDirectory?.getD input⟩
      context := .ofEntries (config.entries input ambient) }) files := by
  have hdirectory : files.isDirectory (config.outputDirectory?.getD input) = true := by
    rw [Config.outputDirectory?, hinput]
    cases hout : config.output.filter (!·.isBlank) with
    | none => exact hroot
    | some output => exact houtput output (Option.filter_eq_some_iff.1 hout).1
  refine setUp_of_prepared htransformers hinput hroot hentries ?_
  unfold prepareOutput
  split
  · rfl
  · rw [FileTree.createDirectories_of_isDirectory hdirectory]

/-- Where a directory was prepared, it needs no work later. -/
theorem prepareOutput_again {output : Path} {t t' t'' : FileTree}
    (h : prepareOutput input output t = .ok () t') (hsettled : Settled t' t'') :
    prepareOutput input output t'' = .ok () t'' := by
  unfold prepareOutput at h ⊢
  split
  · rfl
  rename_i hother
  rw [if_neg hother] at h
  split at h
  · cases h
  rename_i hmade
  cases h
  have hagain : FileTree.createDirectories output t'' = .ok () t'' := by
    rcases FileTree.isDirectory_of_createDirectories hmade with hempty | hthere
    · unfold FileTree.createDirectories FileTree.createAll
      rw [if_pos hempty]
    · exact FileTree.createDirectories_of_isDirectory
        (FileTree.isDirectory_of_settled hsettled hthere)
  rw [hagain]

/-- A run that was set up can be set up later again if nothing was removed. -/
theorem setUp_again {t t' t'' : FileTree} {setup : Setup}
    (h : setUp config transformers ambient t = .ok (some setup) t') (hsettled : Settled t' t'') :
    setUp config transformers ambient t'' = .ok (some setup) t'' := by
  obtain ⟨hsame, hinput, houtput, hcontext⟩ := setUp_eq_ok h
  obtain ⟨htransformers, hroot, hchecks, hprepared⟩ := setUp_parts h
  have hall : Settled t t'' := hsame.toSettled.trans hsettled
  have hagain := setUp_of_prepared htransformers hinput
    (FileTree.isDirectory_of_settled hall (checkRoot_eq_ok_iff.1 hroot))
    (fun e he => Classpath.check_of_settled hall (hchecks e he))
    (prepareOutput_again hprepared hsettled)
  rw [hagain, ← Config.classOutput_of_input hinput, ← houtput, ← hcontext]

/-- A run whose directories are all there comes to its end and removes
nothing. -/
theorem run_of_directories (hstep : ∀ p n s, Settled s.files (step p n s).files)
    (htransformers : transformers ≠ []) (hinput : config.input = some input)
    (hroot : files.isDirectory input = true)
    (hentries : ∀ e ∈ config.entries input ambient, e.check files = .ok ())
    (houtput : ∀ output, config.output = some output → files.isDirectory output = true) :
    ∃ report, (run step config transformers ambient files).report = .ok report ∧
      Settled files (run step config transformers ambient files).files := by
  cases hblank : input.isBlank with
  | true =>
    have hnone : config.inputDirectory? = none := by
      rw [Config.inputDirectory?, hinput, Option.filter_some, hblank]
      rfl
    rw [run_of_no_input hnone]
    exact ⟨.empty, rfl, .refl files⟩
  | false =>
    have hsome : config.inputDirectory? = some input := by
      rw [Config.inputDirectory?, hinput, Option.filter_some, hblank]
      rfl
    rw [run, setUp_of_directories htransformers hsome hroot hentries houtput]
    dsimp only
    obtain ⟨s', hpassed, hsettled⟩ := passOver_of_settled hstep
      (passes transformers ⟨config.outputDirectory?.getD input⟩)
      (s := .start files (.ofEntries (config.entries input ambient))) hroot
    rw [hpassed]
    exact ⟨s'.report, rfl, hsettled⟩

/-- A run that comes to its end had nothing to do, or was set up. -/
theorem setUp_of_report {report : Report}
    (hok : (run step config transformers ambient files).report = .ok report) :
    setUp config transformers ambient files = .ok none files ∨
      ∃ setup files', setUp config transformers ambient files = .ok (some setup) files' := by
  rcases setUp_cases config transformers ambient files with
    ⟨e, files', h, -⟩ | h | ⟨input, files', -, -, -, h⟩
  · rw [run, h] at hok
    cases hok
  · exact .inl h
  · exact .inr ⟨_, _, h⟩

/-- A run that came to its end comes to its end if it is done again. -/
theorem run_again (hstep : ∀ p n s, Settled s.files (step p n s).files) {report : Report}
    (hok : (run step config transformers ambient files).report = .ok report) :
    ∃ report', (run step config transformers ambient
      (run step config transformers ambient files).files).report = .ok report' := by
  rcases setUp_of_report hok with hs | ⟨setup, files', hs⟩
  · have hfiles : (run step config transformers ambient files).files = files := by rw [run, hs]
    rw [hfiles]
    exact ⟨report, hok⟩
  obtain ⟨hsame, -⟩ := setUp_eq_ok hs
  have hroot : files'.isDirectory setup.input = true :=
    FileTree.isDirectory_of_settled hsame.toSettled (checkRoot_eq_ok_iff.1 (setUp_parts hs).2.1)
  obtain ⟨s, hpassed, hsettled⟩ := passOver_of_settled hstep (passes transformers setup.output)
    (s := .start files' setup.context) hroot
  have hfiles : (run step config transformers ambient files).files = s.files := by
    rw [run, hs]
    dsimp only
    rw [hpassed]
  obtain ⟨s', hpassed', -⟩ := passOver_of_settled hstep (passes transformers setup.output)
    (s := .start s.files setup.context) (FileTree.isDirectory_of_settled hsettled hroot)
  rw [hfiles, run, setUp_again hs hsettled]
  dsimp only
  rw [hpassed']
  exact ⟨s'.report, rfl⟩

end Passes

end Run

end ClassStamp
