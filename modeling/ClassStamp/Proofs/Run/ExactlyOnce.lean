import ClassStamp.Proofs.Classpath.Lookup
import ClassStamp.Proofs.Run.Execution

/-!
# Each transformer acts on each class at most once

Runs that write their results back into the directory of their input find
there what earlier runs did: the stamp that a transformer left in the file of
a class keeps every transformer of that identity from acting on it again.

* `Marked`: every class that was written has its stamps in its file;
* `marked_execute`: a run keeps to that, and no transformer acts in it on a
  class that it wrote before, be it in an earlier run;
* `written_at_most_once`: any number of runs, one after the other.
-/

namespace ClassStamp.Run

open FileTree (Settled Place)

/-- A run that is to be done. -/
structure Job where
  /-- The directories. -/
  config : Config
  /-- The transformers in order. -/
  transformers : List Transformer
  /-- The ambient classpath. -/
  ambient : List Path

/-- Does the run. -/
def Job.execute (job : Job) (files : FileTree) : Result :=
  Run.execute job.config job.transformers job.ambient files

/-- Does runs one after the other, with nothing else happening to the files. -/
def executeAll : List Job → FileTree → List Result
  | [], _ => []
  | job :: rest, files => job.execute files :: executeAll rest (job.execute files).files

/-- The outcomes in the report of a run. A run that failed has no report. -/
def Result.outcomes (r : Result) : List Outcome :=
  match r.report with
  | .ok report => report.outcomes
  | .error _ => []

/-- The outcomes in the reports of some runs, in order. -/
def reported (results : List Result) : List Outcome := results.flatMap (·.outcomes)

/-- What happened in some runs, in order. -/
def logged (results : List Result) : List Event := results.flatMap (·.log)

/-- The run writes back into its input, which is the directory at the place. -/
def Job.InPlace (job : Job) (files : FileTree) (root : Place) : Prop :=
  job.config.outputDirectory? = job.config.inputDirectory? ∧
    ∀ input, job.config.inputDirectory? = some input → files.placeOf input = root

/-- The transformers of the run only add to classes. -/
def Job.Additive (job : Job) : Prop := ∀ t ∈ job.transformers, t.Additive fun _ => True

/-- The file of every class that was written has the stamp of whoever wrote
it. -/
def Marked (root : Place) (past : List Event) (files : FileTree) : Prop :=
  ∀ e ∈ past, ∀ identity n, e.Writes identity n → ∃ bytes c,
    files.fileAt? (n.fileNames.reverse ++ root) = some bytes ∧ ClassFile.parse bytes = .ok c ∧
    c.name = .ok n ∧ c.Declares (Stamp.forIdentity identity).field

/-! ## One run -/

theorem find_of_checkRoot {files : FileTree} {root : Path} (h : checkRoot files root = .ok ()) :
    ∃ entries, files.find root = .ok (files.placeOf root, .directory entries) := by
  unfold checkRoot at h
  split at h
  · cases h
  · cases h
  · rename_i place entries hf
    rw [(FileTree.find_place hf).1] at hf
    exact ⟨entries, hf⟩

/-- Of a class whose file in the input is there, a look-up finds just that file. -/
theorem content_of_found {g : Outset} {input : Path} {rest : List Classpath.Entry}
    (hentries : g.entries = .directory input :: rest) (hroot : checkRoot g.files input = .ok ())
    {files : FileTree} (hsettled : Settled g.files files) {n : ClassName} {bytes : Bytes}
    (hat : files.fileAt? (n.fileNames.reverse ++ g.files.placeOf input) = some bytes)
    {found : Classpath.ClassBytes}
    (hfound : Classpath.firstFound (Classpath.Entry.load files n) g.entries = .ok (some found)) :
    found.content = bytes := by
  obtain ⟨entries, hfind⟩ := find_of_checkRoot hroot
  obtain ⟨node, hfind', hkind⟩ := FileTree.find_of_settled hsettled hfind
  cases node with
  | file content => cases hkind
  | directory entries' =>
    rw [hentries] at hfound
    exact Classpath.firstFound_directory hfind' hat hfound

/-- Of a class whose file in the input is there at the outset, the classpath
supplies just that file. -/
theorem parse_of_supplies {g : Outset} {input : Path} {rest : List Classpath.Entry}
    (hentries : g.entries = .directory input :: rest) (hroot : checkRoot g.files input = .ok ())
    {n : ClassName} {bytes : Bytes} {b : ClassFile}
    (hat : g.files.fileAt? (n.fileNames.reverse ++ g.files.placeOf input) = some bytes)
    (hb : g.Supplies n b) : ClassFile.parse bytes = .ok b := by
  obtain ⟨hbn, files, found, hsettled, hsame, hfound, hbparse⟩ := hb
  -- the file is still there, though a run may have written it meanwhile
  have hstill := hsettled.files (n.fileNames.reverse ++ g.files.placeOf input) (by rw [hat]; rfl)
  obtain ⟨bytes', hat'⟩ := Option.isSome_iff_exists.1 hstill
  rw [← content_of_found hentries hroot hsettled hat' hfound] at hat'
  have hsame' := hsame _ _ b hat' hbparse hbn
  rw [hat] at hsame'
  cases hsame'
  exact hbparse

theorem supplied_from_input {g : Outset} {input : Path} {rest : List Classpath.Entry}
    (hentries : g.entries = .directory input :: rest) (hroot : checkRoot g.files input = .ok ())
    {n : ClassName} {bytes : Bytes} {b c : ClassFile}
    (hat : g.files.fileAt? (n.fileNames.reverse ++ g.files.placeOf input) = some bytes)
    (hparse : ClassFile.parse bytes = .ok c) (hb : g.Supplies n b) : b = c :=
  Except.ok.inj ((parse_of_supplies hentries hroot hat hb).symm.trans hparse)

/-- Results go back into the directory of the input. -/
structure Outset.InPlace (g : Outset) (root : Place) : Prop where
  output : ∀ n, g.files.placeOf (g.output.pathFor n) = n.fileNames.reverse ++ root
  first : ∃ input rest, g.entries = .directory input :: rest ∧
    checkRoot g.files input = .ok () ∧ g.files.placeOf input = root

section

variable {g : Outset} {root : Place} {past : List Event} {s : State}

/-- A class that an earlier run wrote is supplied with the stamp. -/
theorem declares_of_supplies (hg : g.InPlace root) (hmarked : Marked root past g.files)
    {e : Event} (he : e ∈ past) {identity : String} {n : ClassName} (hw : e.Writes identity n)
    {b : ClassFile} (hb : g.Supplies n b) : b.Declares (Stamp.forIdentity identity).field := by
  obtain ⟨input, rest, hentries, hroot, hplace⟩ := hg.first
  obtain ⟨bytes, c, hat, hparse, -, hdeclares⟩ := hmarked e he identity n hw
  rw [← hplace] at hat
  rwa [supplied_from_input hentries hroot hat hparse hb]

theorem fileAt?_of_written (hg : g.InPlace root) (hs : Inv g [] s) {n : ClassName}
    (hn : Written s.log n) : ∃ bytes c,
      s.files.fileAt? (n.fileNames.reverse ++ root) = some bytes ∧
      ClassFile.parse bytes = .ok c ∧ Traced g s.log n c := by
  obtain ⟨bytes, c, hread, hparse, hc⟩ := hs.disk.written n hn
  have hat := FileTree.fileAt?_of_read hread
  rw [hs.disk.settled.placeOf, hg.output] at hat
  exact ⟨bytes, c, hat, hparse, hc⟩

theorem fileAt?_of_not_written (hg : g.InPlace root) (hs : Inv g [] s) {n : ClassName}
    (hn : ¬ Written s.log n) : s.files.fileAt? (n.fileNames.reverse ++ root) =
      g.files.fileAt? (n.fileNames.reverse ++ root) := by
  refine hs.disk.others _ fun m hm hp => hn ?_
  rw [hg.output] at hp
  rwa [ClassName.fileNames_inj (List.reverse_inj.1 (List.append_cancel_right hp))]

/-- A run in place leaves the marks of earlier runs, and marks what it writes
itself. -/
theorem marked_append (hg : g.InPlace root) (hmarked : Marked root past g.files)
    (hs : Inv g [] s) : Marked root (past ++ s.log) s.files := by
  intro e he identity n hw
  rcases List.mem_append.1 he with he | he
  · by_cases hn : Written s.log n
    · obtain ⟨bytes, c, hat, hparse, hc⟩ := fileAt?_of_written hg hs hn
      obtain ⟨b, hb, hgrows⟩ := hc.origin
      have hdeclares := declares_of_supplies hg hmarked he hw hb
      exact ⟨bytes, c, hat, hparse, hc.name, ClassFile.declared_of_grows hgrows hdeclares⟩
    · rw [fileAt?_of_not_written hg hs hn]
      exact hmarked e he identity n hw
  · obtain ⟨o, rfl, hwrites, rfl⟩ := hw
    obtain ⟨bytes, c, hat, hparse, hc⟩ := fileAt?_of_written hg hs ⟨o, he, hwrites⟩
    obtain ⟨-, d, -, -, hdeclares, hd⟩ := hc.written he hwrites
    exact ⟨bytes, c, hat, hparse, hc.name, ClassFile.declared_of_grows hd hdeclares⟩

/-- A run in place heeds the marks of earlier runs. -/
theorem once_append (hg : g.InPlace root) (hmarked : Marked root past g.files)
    (honce : past.Pairwise Once) (hs : Inv g [] s) : (past ++ s.log).Pairwise Once := by
  refine List.pairwise_append.2 ⟨honce, hs.ledger.order, ?_⟩
  intro e he later hlater identity n hw ht
  obtain ⟨b, hb, hnot⟩ := hs.ledger.fresh later hlater identity n ht
  exact hnot (declares_of_supplies hg hmarked he hw hb)

end

/-- A run without an output directory writes back into its input. -/
theorem Job.inPlace_of_no_output {job : Job} {input : Path} (hin : job.config.input = some input)
    (hout : job.config.output = none) (files : FileTree) :
    job.InPlace files (files.placeOf input) := by
  unfold Job.InPlace Config.outputDirectory? Config.inputDirectory?
  rw [hin, hout]
  refine ⟨rfl, fun path hpath => ?_⟩
  obtain ⟨hsame, -⟩ := Option.filter_eq_some_iff.1 hpath
  rw [Option.some.inj hsame]

theorem Job.InPlace.outset {job : Job} {files : FileTree} {root : Place}
    (h : job.InPlace files root) {input : Path} (hin : job.config.inputDirectory? = some input)
    (hroot : checkRoot files input = .ok ()) {allowed : FieldSpec → Prop} :
    (Outset.of job.config job.transformers job.ambient files allowed input).InPlace root := by
  obtain ⟨houtput, hinput⟩ := h
  refine ⟨fun n => ?_, input, _, rfl, hroot, hinput input hin⟩
  show files.placeOf ((job.config.outputDirectory?.getD input).join n.relativePath) = _
  rw [houtput, hin, Option.getD_some, FileTree.placeOf_join, hinput input hin]

theorem Job.InPlace.of_settled {job : Job} {files files' : FileTree} {root : Place}
    (h : job.InPlace files root) (hs : Settled files files') : job.InPlace files' root :=
  ⟨h.1, fun input hin => (hs.placeOf input).trans (h.2 input hin)⟩

theorem marked_execute {job : Job} {files : FileTree} {root : Place} {past : List Event}
    (hadd : job.Additive) (hplace : job.InPlace files root) (hmarked : Marked root past files)
    (honce : past.Pairwise Once) :
    Settled files (job.execute files).files ∧
      Marked root (past ++ (job.execute files).log) (job.execute files).files ∧
      (past ++ (job.execute files).log).Pairwise Once := by
  rcases execute_cases hadd job.config job.ambient files with
    ⟨hlog, hsame, -⟩ | ⟨input, s, hin, hroot, hs, hlog, hfiles, -⟩
  · rw [Job.execute, hlog, List.append_nil]
    refine ⟨hsame.toSettled, fun e he identity n hw => ?_, honce⟩
    rw [hsame.contents]
    exact hmarked e he identity n hw
  · rw [Job.execute, hlog, hfiles]
    have hg : (Outset.of _ _ _ _ (fun _ => True) input).InPlace root := hplace.outset hin hroot
    exact ⟨hs.disk.settled, marked_append hg hmarked hs, once_append hg hmarked honce hs⟩

/-! ## Any number of runs -/

theorem executeAll_once {root : Place} {jobs : List Job} {files : FileTree} {past : List Event}
    (hadd : ∀ job ∈ jobs, job.Additive) (hplace : ∀ job ∈ jobs, job.InPlace files root)
    (hmarked : Marked root past files) (honce : past.Pairwise Once) :
    (past ++ logged (executeAll jobs files)).Pairwise Once := by
  induction jobs generalizing files past with
  | nil =>
    show (past ++ []).Pairwise Once
    rwa [List.append_nil]
  | cons job jobs ih =>
    obtain ⟨hsettled, hmarked', honce'⟩ := marked_execute (hadd job List.mem_cons_self)
      (hplace job List.mem_cons_self) hmarked honce
    rw [executeAll, logged, List.flatMap_cons, ← List.append_assoc]
    refine ih (fun j hj => hadd j (List.mem_cons_of_mem job hj)) (fun j hj => ?_) hmarked' honce'
    exact (hplace j (List.mem_cons_of_mem job hj)).of_settled hsettled

theorem execute_outcomes {job : Job} (hadd : job.Additive) (files : FileTree) {report : Report}
    (hreport : (job.execute files).report = .ok report) :
    report.outcomes = (job.execute files).log.filterMap Event.outcome? := by
  rcases execute_cases hadd job.config job.ambient files with
    ⟨hlog, -, hnone⟩ | ⟨input, s, -, -, hs, hlog, -, hsame⟩
  · rw [hnone report hreport, Job.execute, hlog]
    rfl
  · rw [hsame report hreport, Job.execute, hlog]
    exact hs.report

theorem exists_job {jobs : List Job} {files : FileTree} {r : Result}
    (h : r ∈ executeAll jobs files) : ∃ job ∈ jobs, ∃ between, r = job.execute between := by
  induction jobs generalizing files with
  | nil => cases h
  | cons job jobs ih =>
    rw [executeAll] at h
    rcases List.mem_cons.1 h with rfl | h
    · exact ⟨job, List.mem_cons_self, files, rfl⟩
    · obtain ⟨j, hj, between, rfl⟩ := ih h
      exact ⟨j, List.mem_cons_of_mem job hj, between, rfl⟩

/-- A report says what happened in its run. -/
theorem outcomes_of_report {jobs : List Job} (hadd : ∀ job ∈ jobs, job.Additive)
    {files : FileTree} {r : Result} (hr : r ∈ executeAll jobs files) {report : Report}
    (hreport : r.report = .ok report) : report.outcomes = r.log.filterMap Event.outcome? := by
  obtain ⟨job, hjob, between, rfl⟩ := exists_job hr
  exact execute_outcomes (hadd job hjob) between hreport

/-- The reports say nothing that did not happen. -/
theorem reported_sublist {results : List Result}
    (h : ∀ r ∈ results, ∀ report, r.report = .ok report →
      report.outcomes = r.log.filterMap Event.outcome?) :
    (reported results).Sublist ((logged results).filterMap Event.outcome?) := by
  induction results with
  | nil => exact .refl []
  | cons r results ih =>
    rw [reported, logged, List.flatMap_cons, List.flatMap_cons, List.filterMap_append]
    refine List.Sublist.append ?_ (ih fun r' hr' => h r' (List.mem_cons_of_mem r hr'))
    unfold Result.outcomes
    cases hreport : r.report with
    | error e => exact List.nil_sublist _
    | ok report =>
      rw [← h r List.mem_cons_self report hreport]

/-- What excludes what comes behind it, is there at most once. -/
theorem countP_le_one {α : Type} {p : α → Bool} {xs : List α}
    (h : xs.Pairwise fun x y => p x = true → p y = false) : xs.countP p ≤ 1 := by
  induction xs with
  | nil => exact Nat.zero_le 1
  | cons x xs ih =>
    obtain ⟨hx, hxs⟩ := List.pairwise_cons.1 h
    rw [List.countP_cons]
    by_cases hp : p x = true
    · have hrest : xs.countP p = 0 :=
        List.countP_eq_zero.2 fun y hy => by rw [hx y hy hp]; exact Bool.false_ne_true
      rw [if_pos hp]
      omega
    · rw [if_neg hp]
      exact ih hxs

/-- Over any number of runs in place, the reports have at most one outcome for
a transformer and a class that says written, and from then on the transformer
is never told to act on the class again. -/
theorem written_at_most_once {jobs : List Job} {files : FileTree} {root : Place}
    (hadd : ∀ job ∈ jobs, job.Additive) (hplace : ∀ job ∈ jobs, job.InPlace files root)
    (identity : String) (n : ClassName) :
    (reported (executeAll jobs files)).countP (fun o =>
        o.transformer = identity ∧ o.name = n ∧ o.state = .written) ≤ 1 ∧
      (logged (executeAll jobs files)).Pairwise (fun e later =>
        e.Writes identity n → ¬ later.Applies identity n) ∧
      ∀ r ∈ executeAll jobs files, ∀ report, r.report = .ok report →
        report.outcomes = r.log.filterMap Event.outcome? := by
  have hnone : Marked root [] files := fun e he => (nomatch he)
  have honce := executeAll_once hadd hplace hnone .nil
  rw [List.nil_append] at honce
  have hreports : ∀ r ∈ executeAll jobs files, ∀ report, r.report = .ok report →
      report.outcomes = r.log.filterMap Event.outcome? :=
    fun r hr report => outcomes_of_report hadd hr
  refine ⟨?_, honce.imp fun h hw ha => h identity n hw (.inr ha), hreports⟩
  refine Nat.le_trans (reported_sublist hreports).countP_le (countP_le_one ?_)
  refine List.pairwise_filterMap.2 (honce.imp fun h o ho o' ho' hw => ?_)
  obtain ⟨ht, hn, hstate⟩ := of_decide_eq_true hw
  refine decide_eq_false fun ⟨ht', hn', hstate'⟩ => ?_
  exact h identity n ⟨o, eq_noted ho, ⟨hn, hstate⟩, ht⟩
    (.inl ⟨o', eq_noted ho', ⟨hn', hstate'⟩, ht'⟩)

/-- Marks the classes of the directory. -/
def markerJob : Job :=
  { config := .new ⟨"classes"⟩, transformers := [MarkerField.default.transformer], ambient := [] }

theorem markerJob_additive : markerJob.Additive := by
  intro t ht
  rw [List.mem_singleton.1 ht]
  exact MarkerField.default.additive trivial

theorem markerJob_inPlace : markerJob.InPlace plainFiles (plainFiles.placeOf ⟨"classes"⟩) :=
  Job.inPlace_of_no_output rfl rfl plainFiles

/-- Of two runs of the same transformer, the second one writes nothing. -/
theorem marker_written_at_most_once :
    (reported (executeAll [markerJob, markerJob] plainFiles)).map (fun o => (o.name, o.state)) =
        [(plainName, .written), (plainName, .skippedStamped)] ∧
      (reported (executeAll [markerJob, markerJob] plainFiles)).countP (fun o =>
        o.transformer = MarkerField.default.identity ∧ o.name = plainName ∧
          o.state = .written) ≤ 1 := by
  have hadd : ∀ job ∈ [markerJob, markerJob], job.Additive := by
    intro job hjob
    rcases List.mem_pair.1 hjob with rfl | rfl <;> exact markerJob_additive
  have hplace : ∀ job ∈ [markerJob, markerJob],
      job.InPlace plainFiles (plainFiles.placeOf ⟨"classes"⟩) := by
    intro job hjob
    rcases List.mem_pair.1 hjob with rfl | rfl <;> exact markerJob_inPlace
  exact ⟨by decide +kernel, (written_at_most_once hadd hplace _ plainName).1⟩

end ClassStamp.Run
