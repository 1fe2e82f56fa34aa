import ClassStamp.Proofs.Run.Step

/-!
# Runs of additive transformers

The invariant of a run holds when the run begins, each step keeps it, and so
it holds when the run ends, however it ends.

* `walk_keeps`, `passOver_keeps`: what every step keeps holds behind a walk
  over the input, and behind all passes;
* `setUp_cases`, `inv_start`: how a run begins;
* `execute_cases`: what a run of additive transformers leaves.
-/

namespace ClassStamp.Run

open FileTree (SameFiles)

/-! ## Walks and passes -/

section Keeps

variable {σ : Type} {P : σ → Prop}

theorem foldl_keeps {α : Type} {step : σ → α → σ} (hstep : ∀ s a, P s → P (step s a))
    (as : List α) {s : σ} (h : P s) : P (as.foldl step s) := by
  induction as generalizing s with
  | nil => exact h
  | cons a as ih => exact ih (hstep s a h)

variable {files : σ → FileTree}

theorem walkBelow_keeps {visit : Option (Path × String) → σ → σ}
    (hvisit : ∀ what s, P s → P (visit what s)) (depth : Nat) (directory : Path) {s : σ}
    (h : P s) : P (walkBelow files visit depth directory s) := by
  induction depth generalizing directory s with
  | zero => exact h
  | succ depth ih =>
    unfold walkBelow
    split
    · exact hvisit none s h
    · refine foldl_keeps (fun s entry hs => ?_) _ h
      dsimp only
      split
      · exact ih _ hs
      · exact hvisit _ s hs

theorem walk_keeps {visit : Option ClassName → σ → σ} (hvisit : ∀ name s, P s → P (visit name s))
    (root : Path) {s : σ} (h : P s) : P (walk files root visit s) := by
  refine walkBelow_keeps (fun what s hs => ?_) _ root h
  cases what with
  | none => exact hvisit none s hs
  | some found =>
    dsimp only
    split
    · exact hvisit _ s hs
    · exact hs

end Keeps

/-- What every step of every pass keeps, holds behind all passes, also if a
walk fails on the way. -/
theorem passOver_keeps {P : State → Prop} {step : Pass → ClassName → State → State} {input : Path}
    {passes : List Pass} (hstep : ∀ p ∈ passes, ∀ name s, P s → P (step p name s)) :
    ∀ {s}, P s → P (leaves (passOver step input passes) s) := by
  induction passes with
  | nil => exact fun h => h
  | cons p passes ih =>
    intro s h
    have hrest := fun p' hp' => hstep p' (List.mem_cons_of_mem p hp')
    cases hroot : checkRoot s.files input with
    | error e =>
      have hfail : passOver step input (p :: passes) s = .error (.unreadableRoot e) s := by
        rw [passOver]
        dsimp only
        rw [hroot]
      rw [leaves_of_error hfail]
      exact h
    | ok _ =>
      unfold leaves
      rw [passOver]
      dsimp only
      rw [hroot]
      change P (leaves (passOver step input passes) (walk _ input _ s))
      refine ih hrest (walk_keeps ?_ input h)
      rintro (_ | name) s hs
      · exact hs
      · exact hstep p List.mem_cons_self name s hs

/-! ## The whole run -/

/-- What a run over a directory begins with. -/
def Outset.of (config : Config) (transformers : List Transformer) (ambient : List Path)
    (files : FileTree) (allowed : FieldSpec → Prop) (input : Path) : Outset :=
  { files, allowed
    entries := config.entries input ambient
    output := ⟨config.outputDirectory?.getD input⟩
    transformers }

/-- What making directories keeps, preparing one for the results keeps. -/
theorem keeps_prepareOutput {R : FileTree → FileTree → Prop} [IsPreorder FileTree R]
    (hmade : ∀ p, Keeps R (FileTree.createDirectories p)) (input output : Path) :
    Keeps R (prepareOutput input output) := by
  intro files
  unfold leaves prepareOutput
  by_cases hsame : output.sameAs input = true
  · rw [if_pos hsame]
    exact refl_of R files
  · rw [if_neg hsame]
    cases hc : FileTree.createDirectories output files with
    | error e files' => exact (hmade output).error hc
    | ok _ files' => exact (hmade output).ok hc

theorem sameFiles_prepareOutput (input output : Path) :
    Keeps SameFiles (prepareOutput input output) :=
  keeps_prepareOutput FileTree.sameFiles_createDirectories input output

/-- A run cannot be set up, has nothing to do, or begins with nothing in
memory; in no case does a file change. -/
theorem setUp_cases (config : Config) (transformers : List Transformer) (ambient : List Path)
    (files : FileTree) :
    (∃ e files', setUp config transformers ambient files = .error e files' ∧
      SameFiles files files') ∨
    setUp config transformers ambient files = .ok none files ∨
    ∃ input files', config.inputDirectory? = some input ∧ SameFiles files files' ∧
      checkRoot files input = .ok () ∧
      setUp config transformers ambient files = .ok (some {
        input, output := ⟨config.outputDirectory?.getD input⟩
        context := .ofEntries (config.entries input ambient) }) files' := by
  unfold setUp
  cases transformers with
  | nil => exact .inr (.inl rfl)
  | cons t transformers =>
    cases hinput : config.inputDirectory? with
    | none => exact .inr (.inl rfl)
    | some input =>
      dsimp only
      cases hroot : checkRoot files input with
      | error e => exact .inl ⟨_, files, rfl, .refl files⟩
      | ok _ =>
        dsimp only
        cases hbuild : Classpath.Context.build files (config.entries input ambient) with
        | error e => exact .inl ⟨_, files, rfl, .refl files⟩
        | ok context =>
          dsimp only
          have hsame := sameFiles_prepareOutput input (config.outputDirectory?.getD input)
          cases hout : prepareOutput input (config.outputDirectory?.getD input) files with
          | error e files' => exact .inl ⟨_, files', rfl, hsame.error hout⟩
          | ok _ files' =>
            rw [Classpath.Context.build_eq_ok hbuild]
            exact .inr (.inr ⟨input, files', rfl, hsame.ok hout, hroot, rfl⟩)

theorem Config.outputDirectory?_of_input {config : Config} {input : Path}
    (h : config.inputDirectory? = some input) :
    config.outputDirectory? = some (config.outputDirectory?.getD input) := by
  rw [Config.outputDirectory?, h]
  cases config.output.filter (!·.isBlank) <;> rfl

/-- Where a run writes classes. -/
def Config.classOutput (c : Config) : Output := ⟨c.outputDirectory?.getD ⟨""⟩⟩

theorem Config.classOutput_of_input {config : Config} {input : Path}
    (h : config.inputDirectory? = some input) :
    config.classOutput = ⟨config.outputDirectory?.getD input⟩ := by
  rw [Config.classOutput, Config.outputDirectory?_of_input h]
  rfl

/-- A run has nothing to do only without transformers or without input. -/
theorem setUp_eq_none {config : Config} {transformers : List Transformer} {ambient : List Path}
    {files files' : FileTree}
    (h : setUp config transformers ambient files = .ok none files') :
    transformers = [] ∨ config.inputDirectory? = none := by
  unfold setUp at h
  split at h
  · exact .inl rfl
  · exact .inr (by assumption)
  · split at h
    · cases h
    · split at h
      · cases h
      · dsimp only at h
        split at h <;> cases h

/-- A run that is set up begins with nothing in memory. -/
theorem setUp_eq_ok {config : Config} {transformers : List Transformer} {ambient : List Path}
    {files files' : FileTree} {setup : Setup}
    (h : setUp config transformers ambient files = .ok (some setup) files') :
    SameFiles files files' ∧ config.inputDirectory? = some setup.input ∧
      setup.output = config.classOutput ∧
      setup.context = .ofEntries (config.entries setup.input ambient) := by
  rcases setUp_cases config transformers ambient files with ⟨e, files', hs, -⟩ | hs |
    ⟨input, files', hinput, hsame, -, hs⟩
  · rw [h] at hs
    cases hs
  · rw [h] at hs
    cases hs
  · rw [h] at hs
    cases hs
    exact ⟨hsame, hinput, (Config.classOutput_of_input hinput).symm, rfl⟩

/-- What a run leaves once it is set up. -/
theorem run_of_setUp (step : Pass → ClassName → State → State) {config : Config}
    {transformers : List Transformer} {ambient : List Path} {files files' : FileTree}
    {setup : Setup} (h : setUp config transformers ambient files = .ok (some setup) files') :
    let s := leaves (passOver step setup.input (passes transformers setup.output))
      (.start files' setup.context)
    (run step config transformers ambient files).log = s.log ∧
      (run step config transformers ambient files).files = s.files ∧
      ∀ report, (run step config transformers ambient files).report = .ok report →
        report = s.report := by
  unfold run
  rw [h]
  dsimp only
  cases hp : passOver step setup.input (passes transformers setup.output)
      (.start files' setup.context) with
  | error e s =>
    rw [leaves_of_error hp]
    exact ⟨rfl, rfl, fun report hr => (nomatch hr)⟩
  | ok _ s =>
    rw [leaves_of_ok hp]
    exact ⟨rfl, rfl, fun report hr => (Except.ok.inj hr).symm⟩

/-- The invariant holds when a run begins. -/
theorem inv_start {g : Outset} {files : FileTree} (h : SameFiles g.files files) :
    Inv g [] (.start files (.ofEntries g.entries)) := by
  have hnone : ∀ n, ¬ Written [] n := fun n ⟨o, ho, _⟩ => by cases ho
  refine ⟨⟨h.toSettled, fun n hn => absurd hn (hnone n), fun place _ => h.contents place⟩,
    ⟨rfl, fun n a ha => (nomatch ha), fun a ha => (nomatch ha), fun a ha => (nomatch ha),
      List.nodup_nil, fun n hn => absurd hn (hnone n)⟩,
    ⟨.nil, fun e he => (nomatch he), fun o ho => (nomatch ho)⟩, rfl⟩

/-- What a run of additive transformers leaves: nothing, if it cannot be set up
or has nothing to do, or else a state of which the invariant holds. -/
theorem execute_cases {allowed : FieldSpec → Prop} {transformers : List Transformer}
    (hadd : ∀ t ∈ transformers, t.Additive allowed) (config : Config) (ambient : List Path)
    (files : FileTree) :
    let r := execute config transformers ambient files
    (r.log = [] ∧ SameFiles files r.files ∧ ∀ report, r.report = .ok report →
      report.outcomes = []) ∨
    ∃ input s, config.inputDirectory? = some input ∧ checkRoot files input = .ok () ∧
      Inv (.of config transformers ambient files allowed input) [] s ∧
      r.log = s.log ∧ r.files = s.files ∧
      ∀ report, r.report = .ok report → report = s.report := by
  dsimp only [execute]
  rcases setUp_cases config transformers ambient files with ⟨e, files', hs, hsame⟩ | hs |
    ⟨input, files', hinput, hsame, hroot, hs⟩
  · unfold run
    rw [hs]
    exact .inl ⟨rfl, hsame, fun report hr => (nomatch hr)⟩
  · unfold run
    rw [hs]
    refine .inl ⟨rfl, .refl files, fun report hr => ?_⟩
    cases hr
    rfl
  · let g := Outset.of config transformers ambient files allowed input
    have hpasses : ∀ p ∈ passes transformers g.output, p.Fits g := by
      intro p hp
      obtain ⟨⟨t, i⟩, ht, rfl⟩ := List.mem_map.1 hp
      have hmem := List.fst_mem_of_mem_zipIdx ht
      exact ⟨rfl, hadd t hmem, hmem⟩
    have hstart : Inv g [] (.start files' (.ofEntries g.entries)) := inv_start hsame
    have hend : Inv g [] (leaves (passOver State.transform input (passes transformers g.output))
        (.start files' (.ofEntries g.entries))) :=
      passOver_keeps (P := Inv g []) (fun p hp name s h => inv_transform (hpasses p hp) h name)
        hstart
    obtain ⟨hlog, hfiles, hreport⟩ := run_of_setUp State.transform hs
    exact .inr ⟨input, _, hinput, hroot, hend, hlog, hfiles, hreport⟩

/-- What is known of a result holds of what is there. -/
theorem exists_eq_ok {ε α β : Type} {r : Except ε α} {f : α → β} {y : β}
    (h : r.toOption.map f = some y) : ∃ x, r = .ok x ∧ f x = y := by
  cases r with
  | error e => cases h
  | ok x => exact ⟨x, rfl, Option.some.inj h⟩

/-! ## A small directory -/

/-- The name `A`. -/
def plainName : ClassName :=
  ⟨"A", by constructor <;> simp [Text.split, ClassName.isForbidden]⟩

/-- The bytes of a class `A` without members. -/
def plainBytes : Bytes :=
  [0xCA, 0xFE, 0xBA, 0xBE, 0, 0, 0, 52, 0, 3, 1, 0, 1, 0x41, 7, 0, 1, 0, 0x21, 0, 2] ++
    List.replicate 10 0

/-- A directory of classes with the class `A`. -/
def plainFiles : FileTree :=
  { workingDirectory := ["work"],
    root := [("work", .directory [("classes", .directory [("A.class", .file plainBytes)])])] }

end ClassStamp.Run
