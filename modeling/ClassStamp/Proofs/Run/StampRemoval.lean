import ClassStamp.Fixture
import ClassStamp.Proofs.Classpath.Steady
import ClassStamp.Proofs.FileTree.Nodes
import ClassStamp.Proofs.Run.Clearing
import ClassStamp.Proofs.Run.Entries
import ClassStamp.Proofs.Run.ExactlyOnce
import ClassStamp.Proofs.Run.StampRecord

/-!
# Runs that remove stamps

A run that removes stamps in place leaves every class that it tells of without the
stamp in question, and takes nothing else away, if no class that it comes to has two
fields of the same name. The same run again finds nothing left to remove, unless a root
of the ambient classpath goes up through a directory that came into being on the way:
such roots are not checked when the run is set up, and what lies below them may supply
other classes then.

* `Config.Distinct` and `Config.DistinctElsewhere`: the classes that a run comes to, in
  its input and elsewhere;
* `stamps_removed`: what such a run leaves behind;
* `elsewhere_misleads`: a root that the run itself makes reachable, and a class elsewhere
  that carries a stamp twice.
-/

namespace ClassStamp.Run

open Classpath (Context Entry firstFound)
open FileTree (Settled SameFiles)

/-! ## What the classpath has -/

/-- Classes go back to the directory that they come from. -/
def Config.InPlace (config : Config) (files : FileTree) : Prop :=
  ∀ input, config.inputDirectory? = some input →
    files.placeOf config.classOutput.root = files.placeOf input

/-- No class file in the input directory has two fields of the same name. -/
def Config.Distinct (config : Config) (files : FileTree) : Prop :=
  config.InTree files ClassFile.DistinctFields

/-- The classpath answers with the class file for the class. -/
def Config.Resolves (config : Config) (ambient : List Path) (files : FileTree) (n : ClassName)
    (c : ClassFile) : Prop :=
  ∃ input, config.inputDirectory? = some input ∧ c.name = .ok n ∧
    ∃ found, firstFound (Entry.load files n) (config.entries input ambient) = .ok (some found) ∧
      ClassFile.parse found.content = .ok c

/-- Nor has a class that the classpath answers with, at a moment of the run, for one that
the report tells of and that has no file of its own then. -/
def Config.DistinctElsewhere (config : Config) (transformers : List Transformer)
    (ambient : List Path) (files : FileTree) (report : Report) : Prop :=
  ∀ o ∈ report.outcomes, ∀ t ∈ moments State.unstamp config transformers ambient files,
    t.files.fileAt? (files.placeOf (config.classOutput.pathFor o.name)) = none →
      ∀ c, config.Resolves ambient t.files o.name c → c.DistinctFields

variable {config : Config} {transformers : List Transformer} {ambient : List Path}
  {files : FileTree} {input : Path}

/-- What a run over a directory that removes stamps begins with. -/
def Outset.plain (config : Config) (ambient : List Path) (files : FileTree) (input : Path) :
    Outset :=
  { files, entries := config.entries input ambient, output := config.classOutput,
    transformers := [], allowed := fun _ => True }

/-- What steady entries supply is what they had at the outset. -/
theorem found_of_supplies {g : Outset} (hsteady : ∀ e ∈ g.entries, e.Steady g.files)
    {n : ClassName} {b : ClassFile} (hb : g.Supplies n b) :
    ∃ found, firstFound (Entry.load g.files n) g.entries = .ok (some found) ∧
      ClassFile.parse found.content = .ok b := by
  obtain ⟨hname, files, found, hsettled, hsame, hfound, hparse⟩ := hb
  exact ⟨found, Classpath.firstFound_load_earlier hsettled hsteady
    (fun place hat => hsame place _ b hat hparse hname) hfound, hparse⟩

theorem supplies_unique {g : Outset} (hsteady : ∀ e ∈ g.entries, e.Steady g.files)
    {n : ClassName} {b c : ClassFile} (hb : g.Supplies n b) (hc : g.Supplies n c) : b = c := by
  obtain ⟨found, hfound, hparse⟩ := found_of_supplies hsteady hb
  obtain ⟨found', hfound', hparse'⟩ := found_of_supplies hsteady hc
  cases hfound.symm.trans hfound'
  exact Except.ok.inj (hparse.symm.trans hparse')

/-! ## The run -/

/-- What a run that removes stamps and succeeds leaves: nothing, if it has nothing to
do, or else a state of which the invariant holds. -/
theorem removeStamps_cases {report : Report}
    (hok : (removeStamps config transformers ambient files).report = .ok report) :
    (report.outcomes = [] ∧ (removeStamps config transformers ambient files).files = files) ∨
    ∃ input past s, config.inputDirectory? = some input ∧ checkRoot files input = .ok () ∧
      (∀ e ∈ config.entries input ambient, e.check files = .ok ()) ∧
      moments State.unstamp config transformers ambient files = past ++ [s] ∧
      Cleared (.plain config ambient files input) past s ∧ report = s.report ∧
      (removeStamps config transformers ambient files).files = s.files := by
  dsimp only [removeStamps] at hok ⊢
  rcases setUp_of_report hok with hs | ⟨setup, files', hs⟩
  · rw [run, hs] at hok ⊢
    cases hok
    exact .inl ⟨rfl, rfl⟩
  obtain ⟨hsame, hin, houtput, hcontext⟩ := setUp_eq_ok hs
  obtain ⟨hroot, hchecks⟩ := setUp_checks hs
  obtain ⟨-, hfiles, hreport⟩ := run_of_setUp State.unstamp hs
  have hlast : (moments State.unstamp config transformers ambient files).getLast? = _ :=
    getLast?_moments hs
  obtain ⟨past, hpast⟩ := List.getLast?_eq_some_iff.1 hlast
  refine .inr ⟨setup.input, past, _, hin, hroot, hchecks, hpast, ?_, hreport report hok, hfiles⟩
  refine moments_keep (P := Cleared (.plain config ambient files setup.input))
    (fun setup' files'' hs' => ?_) (fun setup' files'' hs' p hp n before s hcleared => ?_) hpast
  · cases hs.symm.trans hs'
    rw [hcontext]
    exact cleared_start hsame
  · cases hs.symm.trans hs'
    obtain ⟨⟨t, i⟩, ht, rfl⟩ := List.mem_map.1 hp
    exact cleared_unstamp houtput hcleared n

section InPlace

variable {g g' : Outset} {past past' : List State} {s s' : State} {root : FileTree.Place}
  {o o' : Outcome}

/-- The file of a class that lost no stamp is as at the outset. -/
theorem Cleared.fileAt?_of_kept (h : Cleared g past s) (hg : g.InPlace root) {n : ClassName}
    (hn : ∀ o ∈ s.report.outcomes, o.state = .unstamped → o.name ≠ n) :
    s.files.fileAt? (n.fileNames.reverse ++ root) =
      g.files.fileAt? (n.fileNames.reverse ++ root) := by
  refine h.others _ fun o ho hstate hplace => hn o ho hstate ?_
  rw [hg.output] at hplace
  exact ClassName.fileNames_inj (List.reverse_inj.1 (List.append_cancel_right hplace.symm))

/-- What is in the file of a class in memory is that class, without its stamps. -/
theorem Cleared.parse_file (h : Cleared g past s) (hg : g.InPlace root) {n : ClassName}
    {a : Artifact} (ha : s.context.cache.get? n = some a) {bytes : Bytes} {c : ClassFile}
    (hat : s.files.fileAt? (n.fileNames.reverse ++ root) = some bytes)
    (hparse : ClassFile.parse bytes = .ok c) : c = a.classFile := by
  by_cases hn : ∃ o ∈ s.report.outcomes, o.state = .unstamped ∧ o.name = n
  · obtain ⟨o, ho, hstate, rfl⟩ := hn
    rw [← hg.output] at hat
    exact h.parse_written ho hstate ha hat hparse
  · have hkept : ∀ o ∈ s.report.outcomes, o.state = .unstamped → o.name ≠ n :=
      fun o ho hstate hname => hn ⟨o, ho, hstate, hname⟩
    rw [h.fileAt?_of_kept hg hkept] at hat
    obtain ⟨input, rest, hentries, hroot, rfl⟩ := hg.first
    obtain ⟨t, -, b, hb, -, hclass⟩ := h.memory n a ha
    rw [removed_eq_nil hkept, ClassFile.withoutFirst_nil] at hclass
    rw [hclass, supplied_from_input hentries hroot hat hparse hb.supplies]

/-- A second run removes no stamp that the first one removed or missed. -/
theorem Cleared.not_unstamped_again (hg : g.InPlace root) (hg' : g'.InPlace root)
    (hentries : g'.entries = g.entries) (hfiles : g'.files = s.files)
    (hsteady : ∀ e ∈ g.entries, e.Steady g.files) (h : Cleared g past s)
    (h' : Cleared g' past' s') (ho : o ∈ s.report.outcomes) (hclears : o.Clears)
    (hdistinct : g.DistinctAt past o.name) (ho' : o' ∈ s'.report.outcomes)
    (hidentity : o'.transformer = o.transformer) (hname : o'.name = o.name) :
    o'.state ≠ .unstamped := by
  intro hstate
  obtain ⟨a, ha, hnot⟩ := h.told o ho hclears
  obtain ⟨a', ha', -⟩ := h'.told o' ho' (.inl hstate)
  obtain ⟨t', -, b', hb', hdeclares, -⟩ := h'.memory _ a' ha'
  have hfield : b'.Declares o.stampField := by
    rw [Outcome.stampField, ← hidentity]
    exact hdeclares _ (mem_removed.2 ⟨o', ho', hstate, rfl, rfl⟩)
  rw [hname] at hb'
  refine hnot hdistinct ?_
  by_cases hn : ∃ o' ∈ s.report.outcomes, o'.state = .unstamped ∧ o'.name = o.name
  · -- the second run reads the file that the first one wrote
    obtain ⟨o₁, ho₁, hstate₁, hname₁⟩ := hn
    rw [← hname₁] at ha hb'
    obtain ⟨bytes, hread, hparse⟩ := h.written o₁ ho₁ hstate₁ a ha
    have hat := FileTree.fileAt?_of_read hread
    rw [h.settled.placeOf, hg.output, ← hfiles] at hat
    obtain ⟨input, rest, hentries', hroot, hplace⟩ := hg'.first
    rw [← hplace] at hat
    have hsame := supplied_from_input hentries' hroot hat hparse hb'.supplies
    exact hsame ▸ hfield
  · -- both runs read what was there at the outset
    have hkept : ∀ o' ∈ s.report.outcomes, o'.state = .unstamped → o'.name ≠ o.name :=
      fun o' ho' hstate hname => hn ⟨o', ho', hstate, hname⟩
    obtain ⟨t, -, b, hb, -, hclass⟩ := h.memory _ a ha
    rw [removed_eq_nil hkept, ClassFile.withoutFirst_nil] at hclass
    have hold : g.Supplies o.name b' := by
      refine hb'.supplies.earlier (hfiles ▸ h.settled) hentries
        fun place bytes d hat hd hdname => ?_
      rw [hfiles] at hat
      exact h.original hkept hat hd hdname
    have hsame := supplies_unique hsteady hb.supplies hold
    exact hclass ▸ hsame ▸ hfield

/-- Every file that differs from the outset is that of a class that lost a stamp. -/
theorem Cleared.changed (h : Cleared g past s) {place : FileTree.Place}
    (hne : s.files.fileAt? place ≠ g.files.fileAt? place) :
    ∃ o ∈ s.report.outcomes, o.state = .unstamped ∧
      place = g.files.placeOf (g.output.pathFor o.name) := by
  by_contra hnone
  exact hne (h.others place fun o ho hstate hplace => hnone ⟨o, ho, hstate, hplace⟩)

end InPlace

theorem Config.InPlace.of_settled {files' : FileTree} (h : config.InPlace files)
    (hs : Settled files files') : config.InPlace files' := by
  intro input hin
  rw [hs.placeOf, hs.placeOf]
  exact h input hin

theorem Config.InPlace.placeOf_pathFor (h : config.InPlace files)
    (hin : config.inputDirectory? = some input) (n : ClassName) :
    files.placeOf (config.classOutput.pathFor n) =
      n.fileNames.reverse ++ files.placeOf input := by
  rw [Output.pathFor, FileTree.placeOf_join, h input hin]

theorem Config.InPlace.outset (h : config.InPlace files)
    (hin : config.inputDirectory? = some input) (hroot : checkRoot files input = .ok ()) :
    (Outset.plain config ambient files input).InPlace (files.placeOf input) :=
  ⟨h.placeOf_pathFor hin, input, _, rfl, hroot, rfl⟩

/-- If the classes in the input and elsewhere have distinct fields, then so has every class
that a run comes to. -/
theorem Cleared.distinctAt {past : List State} {s : State} {o : Outcome}
    (hin : config.inputDirectory? = some input) (hroot : checkRoot files input = .ok ())
    (hplace : config.InPlace files) (hinside : config.Distinct files)
    (helsewhere : config.DistinctElsewhere transformers ambient files s.report)
    (hpast : past ⊆ moments State.unstamp config transformers ambient files)
    (ho : o ∈ s.report.outcomes) :
    (Outset.plain config ambient files input).DistinctAt past o.name := by
  intro t ht b hb
  obtain ⟨found, hfound, hparse⟩ := hb.found
  cases hat : t.files.fileAt? (o.name.fileNames.reverse ++ files.placeOf input) with
  | none =>
    rw [← hplace.placeOf_pathFor hin] at hat
    exact helsewhere o ho t (hpast ht) hat b ⟨input, hin, hb.name, found, hfound, hparse⟩
  | some bytes =>
    rw [← content_of_found (g := .plain config ambient files input) rfl hroot hb.settled hat
      hfound] at hat
    exact hinside input hin _ _ b (hb.same _ _ b hat hparse hb.name) hparse

/-- What is not checked when a run is set up is steady: the roots of the ambient classpath
lead to what is there, and the loader answers as it does now. -/
structure Config.Steady (config : Config) (ambient : List Path) (files : FileTree) : Prop where
  ambient : ∀ root ∈ ambient, files.Steady root
  loader : ∀ l ∈ config.loader, l.Steady files

/-- All entries of the classpath are steady then. -/
theorem steady_entries (hchecks : ∀ e ∈ config.entries input ambient, e.check files = .ok ())
    (hsteady : config.Steady ambient files) :
    ∀ e ∈ config.entries input ambient, e.Steady files := by
  intro e he
  cases e with
  | directory root => exact .inl (Classpath.isDirectory_of_checkDirectory (hchecks _ he))
  | loader l =>
    have hl : config.loader = some l := by simpa [Config.entries] using he
    exact hsteady.loader l hl
  | system roots =>
    have hroots : roots = ambient := by simpa [Config.entries] using he
    rw [hroots]
    exact hsteady.ambient

/-- What a run in place that removes stamps leaves behind when it succeeds, if no class
that it comes to has two fields of the same name. A class of which it says that it is
without the stamp has a file that does not declare it. Only files of classes that lost a
stamp differ from before, and such a file is the class that the classpath answered with
when the run came to it, or before the run if the roots of the ambient classpath lead to
what is there and the loader is steady, without the stamps that were removed, all of which
it had. In that case too the same run again removes none of the stamps that this one
removed or missed. -/
theorem stamps_removed {report : Report} (hplace : config.InPlace files)
    (hinside : config.Distinct files)
    (helsewhere : config.DistinctElsewhere transformers ambient files report)
    (hok : (removeStamps config transformers ambient files).report = .ok report) :
    let after := (removeStamps config transformers ambient files).files
    let path := config.classOutput.pathFor
    (∀ o ∈ report.outcomes, o.Clears → ∀ bytes c,
      after.fileAt? (files.placeOf (path o.name)) = some bytes → ClassFile.parse bytes = .ok c →
        ¬ c.Declares o.stampField) ∧
    (∀ place, after.fileAt? place ≠ files.fileAt? place →
      ∃ o ∈ report.outcomes, o.state = .unstamped ∧ place = files.placeOf (path o.name)) ∧
    (∀ o ∈ report.outcomes, o.state = .unstamped → ∃ bytes b,
      after.read (path o.name) = .ok bytes ∧
      ClassFile.parse bytes = .ok (b.without (removed report.outcomes o.name)) ∧
      (∀ field ∈ removed report.outcomes o.name, b.Declares field) ∧
      (∃ t ∈ moments State.unstamp config transformers ambient files,
        config.Resolves ambient t.files o.name b) ∧
      (config.Steady ambient files → config.Resolves ambient files o.name b)) ∧
    (config.Steady ambient files → ∀ report',
      (removeStamps config transformers ambient after).report = .ok report' →
        ∀ o ∈ report.outcomes, o.Clears → ∀ o' ∈ report'.outcomes,
          o'.transformer = o.transformer → o'.name = o.name → o'.state ≠ .unstamped) := by
  dsimp only
  rcases removeStamps_cases hok with
    ⟨hnone, hsame⟩ | ⟨input, past, s, hin, hroot, hchecks, hmoments, hs, rfl, hfiles⟩
  · rw [hnone, hsame]
    exact ⟨fun o ho => (nomatch ho), fun place hne => absurd rfl hne, fun o ho => (nomatch ho),
      fun _ _ _ o ho => (nomatch ho)⟩
  have hg : (Outset.plain config ambient files input).InPlace (files.placeOf input) :=
    hplace.outset hin hroot
  have hsteady := steady_entries hchecks
  have hpath : ∀ n, files.placeOf (config.classOutput.pathFor n) =
      n.fileNames.reverse ++ files.placeOf input := hg.output
  have hpast : past ⊆ moments State.unstamp config transformers ambient files := by
    rw [hmoments]
    exact List.subset_append_left past [s]
  have hdistinct : ∀ o ∈ s.report.outcomes,
      (Outset.plain config ambient files input).DistinctAt past o.name :=
    fun o ho => Cleared.distinctAt hin hroot hplace hinside helsewhere hpast ho
  rw [hfiles]
  refine ⟨fun o ho hclears bytes c hat hparse => ?_, fun place hne => hs.changed hne,
    fun o ho hstate => ?_, fun hambient report' hok' o ho hclears o' ho' hidentity hname => ?_⟩
  · obtain ⟨a, ha, hnot⟩ := hs.told o ho hclears
    rw [hpath] at hat
    rw [hs.parse_file hg ha hat hparse]
    exact hnot (hdistinct o ho)
  · obtain ⟨a, ha, -⟩ := hs.told o ho (.inl hstate)
    obtain ⟨bytes, hread, hparse⟩ := hs.written o ho hstate a ha
    obtain ⟨t, ht, b, hb, hdeclares, hclass⟩ := hs.memory _ a ha
    rw [hclass, ClassFile.withoutFirst_eq (hdistinct o ho t ht b hb)] at hparse
    refine ⟨bytes, b, hread, hparse, hdeclares, ⟨t, hpast ht, input, hin, hb.name, hb.found⟩,
      fun hambient => ?_⟩
    have hfound := found_of_supplies (hsteady hambient) hb.supplies
    exact ⟨input, hin, hb.name, hfound⟩
  · rcases removeStamps_cases hok' with
      ⟨hnone, -⟩ | ⟨input', past', s', hin', hroot', -, -, hs', rfl, -⟩
    · rw [hnone] at ho'
      cases ho'
    cases hin.symm.trans hin'
    have hg' : (Outset.plain config ambient s.files input).InPlace (s.files.placeOf input) :=
      (hplace.of_settled hs.settled).outset hin hroot'
    rw [hs.settled.placeOf] at hg'
    exact hs.not_unstamped_again hg hg' rfl rfl (hsteady hambient) hs' ho hclears
      (hdistinct o ho) ho' hidentity hname

/-! ## A marked class -/

theorem distinctFields_of_one {c : ClassFile} (h : c.fields.length ≤ 1) : c.DistinctFields := by
  unfold ClassFile.DistinctFields
  match hfields : c.fields with
  | [] => exact .nil
  | [m] => exact List.pairwise_singleton _ m
  | m :: m' :: rest =>
    rw [hfields] at h
    exact absurd h (by simp)

/-- A class with a file of its own has it throughout the run. -/
theorem Config.distinctElsewhere_of_files {report : Report}
    (h : ∀ o ∈ report.outcomes,
      (files.fileAt? (files.placeOf (config.classOutput.pathFor o.name))).isSome) :
    config.DistinctElsewhere transformers ambient files report := by
  intro o ho t ht hnone
  obtain ⟨before, after, hmoments⟩ := List.mem_iff_append.1 ht
  have hsettled : Settled files t.files := by
    refine moments_keep (P := fun _ s => Settled files s.files) (fun setup files' hs => ?_)
      (fun setup files' hs p hp n before s hsettled => ?_) hmoments
    · exact (setUp_eq_ok hs).1.toSettled
    · exact hsettled.trans (settled_unstamp p n s)
  have hthere := hsettled.files _ (h o ho)
  rw [hnone] at hthere
  cases hthere

/-- A transformer with a stamp. -/
def stamper : Transformer := MarkerField.default.transformer

/-- The bytes of a class that carries the stamp, or not. -/
def classBytes (n : ClassName) (stamped : Bool) : Bytes :=
  let fields := if stamped then [stamper.stamp.field] else []
  (({ Fixture.ofName n with fields } : Fixture).build >>= ClassFile.toBytes).toOption.getD []

/-- A directory of classes with the class `A`, which carries the stamp. -/
def markedFiles : FileTree :=
  { workingDirectory := ["work"],
    root := [("work", .directory [("classes", .directory
      [("A.class", .file (classBytes plainName true))])])] }

/-- The stamp is removed, and nothing else. -/
theorem marked_class_unstamped : ∃ report o,
    (removeStamps (.new ⟨"classes"⟩) [stamper] [] markedFiles).report = .ok report ∧
      report.outcomes = [o] ∧ o.state = .unstamped ∧ o.name = plainName ∧
      ∃ bytes, ∃ b : ClassFile, b.Declares stamper.stamp.field ∧
        (removeStamps (.new ⟨"classes"⟩) [stamper] [] markedFiles).files.read
          ⟨"classes/A.class"⟩ = .ok bytes ∧
        ClassFile.parse bytes = .ok (b.without [stamper.stamp.field]) := by
  obtain ⟨report, hok, houtcomes⟩ : ∃ report,
      (removeStamps (.new ⟨"classes"⟩) [stamper] [] markedFiles).report = .ok report ∧
        report.outcomes.map (fun o => (o.transformer, o.name, o.state)) =
          [(stamper.identity, plainName, .unstamped)] :=
    exists_eq_ok (by decide +kernel)
  obtain ⟨o, rest, hrest, ho, hnone⟩ := List.map_eq_cons_iff.1 houtcomes
  rw [List.map_eq_nil_iff.1 hnone] at hrest
  simp only [Prod.mk.injEq] at ho
  obtain ⟨hidentity, hname, hstate⟩ := ho
  obtain ⟨-, -, hexact, -⟩ := stamps_removed (fun input hin => by cases hin; rfl)
    (Config.inTree_of_nodes rfl 1 (fun _ => distinctFields_of_one) (by decide +kernel))
    (Config.distinctElsewhere_of_files fun o' ho' => by
      rw [hrest, List.mem_singleton] at ho'
      rw [ho', hname]
      decide +kernel) hok
  obtain ⟨bytes, b, hread, hparse, hdeclares, -⟩ :=
    hexact o (by rw [hrest]; exact List.mem_singleton_self o) hstate
  have hremoved : removed report.outcomes o.name = [stamper.stamp.field] := by
    rw [hrest, ← List.nil_append [o], removed_concat hstate rfl, Outcome.stampField, hidentity]
    rfl
  rw [hremoved] at hparse hdeclares
  rw [hname] at hread
  exact ⟨report, o, hok, hrest, hstate, hname, bytes, b, hdeclares _ (List.mem_singleton_self _),
    hread, hparse⟩

/-! ## A root that comes into being -/

/-- The name `A.N`. -/
def missingName : ClassName :=
  ⟨"A.N", by constructor <;> simp [Text.split, ClassName.isForbidden]⟩

/-- The name `k.a.X`. -/
def movedName : ClassName :=
  ⟨"k.a.X", by constructor <;> simp [Text.split, ClassName.isForbidden]⟩

/-- The name `k.N`. -/
def lateName : ClassName :=
  ⟨"k.N", by constructor <;> simp [Text.split, ClassName.isForbidden]⟩

/-- A directory with three files whose names stand for the classes `A.N`, `k.a.X` and
`k.N`. These are found elsewhere, `A.N` and `k.N` without the stamp below `lib2` and
with it below `lib`. -/
def detourFiles : FileTree :=
  let file (n : ClassName) (stamped : Bool) : String × FileTree.Node :=
    (n.simpleName ++ ".class", .file (classBytes n stamped))
  { workingDirectory := ["work"],
    root := [("work", .directory [
      ("in", .directory [("A.N.class", .file []),
        ("k", .directory [("a.X.class", .file [])]), ("k.N.class", .file [])]),
      ("ext", .directory [("k", .directory [("a", .directory [file movedName true])])]),
      ("lib", .directory [("A", .directory [file missingName true]),
        ("k", .directory [file lateName true])]),
      ("lib2", .directory [("A", .directory [file missingName false]),
        ("k", .directory [file lateName false])])])] }

/-- The run over that directory. -/
def detourConfig : Config := { Config.new ⟨"in"⟩ with classpath := [⟨"ext"⟩] }

/-- The way to `lib` goes through a directory that the run makes. -/
def detourAmbient : List Path := [⟨"in/k/a/../../../lib"⟩, ⟨"lib2"⟩]

/-- The only pass of the run. -/
def detourPass : Pass := { position := 0, transformer := stamper, output := ⟨⟨"in"⟩⟩ }

/-- What is in the directory. -/
def detourKinds : List (String × Bool) :=
  [("A.N.class", false), ("k", true), ("k.N.class", false)]

/-- What the run does about one file. -/
def detourVisit : Option (Path × String) → State → State
  | none => id
  | some (path, name) =>
    if isClassFile name then
      match (ClassName.ofPathBelow? ⟨"in"⟩ path).toOption with
      | none => id
      | some n => State.unstamp detourPass n
    else id

/-- What the run does about one entry of the directory. -/
def detourStep (s : State) (e : String × Bool) : State :=
  if e.2 then walkBelow State.files detourVisit 4094 (Path.join ⟨"in"⟩ ⟨e.1⟩) s
  else detourVisit (some (Path.join ⟨"in"⟩ ⟨e.1⟩, e.1)) s

/-- The run behind some entries of the directory. -/
def detourState (t : FileTree) (es : List (String × Bool)) : State :=
  es.foldl detourStep (.start t (.ofEntries (detourConfig.entries ⟨"in"⟩ detourAmbient)))

/-- The run over the directory goes on from entry to entry. -/
theorem removeStamps_detour {t : FileTree} (hin : kinds t ⟨"in"⟩ = some detourKinds)
    (hroot : t.isDirectory ⟨"in"⟩ = true) (hext : t.isDirectory ⟨"ext"⟩ = true) :
    (removeStamps detourConfig [stamper] detourAmbient t).report =
        .ok (detourState t detourKinds).report ∧
      (removeStamps detourConfig [stamper] detourAmbient t).files =
        (detourState t detourKinds).files := by
  have hchecks : ∀ e ∈ detourConfig.entries ⟨"in"⟩ detourAmbient, e.check t = .ok () :=
    Config.check_entries hroot (List.forall_mem_singleton.2 hext)
  exact run_of_kinds rfl rfl hroot hchecks hin (by decide)

/-- Steps keep what is in the report. -/
theorem outcomes_unstamp (p : Pass) (n : ClassName) (s : State) :
    s.report.outcomes ⊆ (State.unstamp p n s).report.outcomes := by
  rcases unstamp_cases p n s with ⟨o, h⟩ | ⟨a, b, c, context, file, files, h, heq⟩
  · rw [h.report]
    exact List.subset_append_left _ _
  · rw [heq]
    exact List.subset_append_left _ _

/-- What the run says behind the first entry it says in the end. -/
theorem outcomes_detourState {o : Outcome} {t : FileTree} {e : String × Bool}
    {es : List (String × Bool)} (ho : o ∈ (detourState t [e]).report.outcomes) :
    o ∈ (detourState t (e :: es)).report.outcomes := by
  let behind := stateBehind State.unstamp detourConfig stamper detourAmbient t ⟨"in"⟩
  show o ∈ (behind (e :: es)).report.outcomes
  exact outcomes_stateBehind outcomes_unstamp ho

/-- Before the run the class `k.N` is found below `lib2`. -/
theorem detour_resolves : ∃ b, detourConfig.Resolves detourAmbient detourFiles lateName b ∧
    b.pool.count = 5 := by
  obtain ⟨b, hparse, hb⟩ : ∃ b, ClassFile.parse (classBytes lateName false) = .ok b ∧
      (b.name, b.pool.count) = (.ok lateName, 5) :=
    exists_eq_ok (by decide +kernel)
  obtain ⟨hname, hcount⟩ := Prod.mk.inj hb
  obtain ⟨found?, hfound, hbytes⟩ : ∃ found?, firstFound (Entry.load detourFiles lateName)
      (detourConfig.entries ⟨"in"⟩ detourAmbient) = .ok found? ∧
        found?.map (·.content) = some (classBytes lateName false) :=
    exists_eq_ok (by decide +kernel)
  obtain ⟨found, rfl, hcontent⟩ := Option.map_eq_some_iff.1 hbytes
  exact ⟨b, ⟨⟨"in"⟩, rfl, hname, found, hfound, hcontent ▸ hparse⟩, hcount⟩

/-- What the run says, what it leaves, and what it begins with when it is run again. -/
theorem detour_behind :
    let s := detourState detourFiles detourKinds
    told s = [(stamper.identity, missingName, .notStamped),
        (stamper.identity, movedName, .unstamped), (stamper.identity, lateName, .unstamped)] ∧
      kinds s.files ⟨"in"⟩ = some detourKinds ∧ s.files.isDirectory ⟨"in"⟩ = true ∧
      s.files.isDirectory ⟨"ext"⟩ = true ∧
      (s.files.read (detourConfig.classOutput.pathFor lateName)).toOption.map
          (fun bytes => (ClassFile.parse bytes).toOption.map (·.pool.count)) = some (some 7) ∧
      told (detourState s.files [("A.N.class", false)]) =
        [(stamper.identity, missingName, .unstamped)] := by
  decide +kernel

/-! ## A class elsewhere that carries a stamp twice -/

/-- The bytes of a class that carries the stamp twice. -/
def doubledBytes (n : ClassName) : Bytes :=
  match ClassFile.parse (classBytes n true) with
  | .ok c => (ClassFile.toBytes { c with fields := c.fields ++ c.fields }).toOption.getD []
  | .error _ => []

/-- A directory with a file whose name stands for the class `A.N`, which is found elsewhere
and carries the stamp twice. -/
def doubledFiles : FileTree :=
  { workingDirectory := ["work"],
    root := [("work", .directory [("in", .directory [("A.N.class", .file [])]),
      ("lib", .directory [("A", .directory [("N.class", .file (doubledBytes missingName))])])])] }

/-- The run over that directory. -/
def doubledConfig : Config := { Config.new ⟨"in"⟩ with classpath := [⟨"lib"⟩] }

/-- What the run says, and whether the class that it writes carries the stamp. -/
theorem doubled_behind : ∃ report,
    (removeStamps doubledConfig [stamper] [] doubledFiles).report = .ok report ∧
      report.outcomes.map (fun o => (o.transformer, o.name, o.state)) =
        [(stamper.identity, missingName, .unstamped)] ∧
      ∃ bytes, (removeStamps doubledConfig [stamper] [] doubledFiles).files.read
          (doubledConfig.classOutput.pathFor missingName) = .ok bytes ∧
        ∃ c, ClassFile.parse bytes = .ok c ∧ c.Declares stamper.stamp.field := by
  obtain ⟨report, hok, houtcomes⟩ : ∃ report,
      (removeStamps doubledConfig [stamper] [] doubledFiles).report = .ok report ∧
        report.outcomes.map (fun o => (o.transformer, o.name, o.state)) =
          [(stamper.identity, missingName, .unstamped)] :=
    exists_eq_ok (by decide +kernel)
  obtain ⟨bytes, hread, hfile⟩ : ∃ bytes,
      (removeStamps doubledConfig [stamper] [] doubledFiles).files.read
          (doubledConfig.classOutput.pathFor missingName) = .ok bytes ∧
        (ClassFile.parse bytes).toOption.map
          (fun c => (c.declaredField? stamper.stamp.field).isSome) = some true :=
    exists_eq_ok (by decide +kernel)
  obtain ⟨c, hparse, hdeclares⟩ := exists_eq_ok hfile
  exact ⟨report, hok, houtcomes, bytes, hread, c, hparse, hdeclares⟩

/-- No class file in the input has two fields of the same name, and still a run may mislead.
The root below which the classes carry the stamp may be there only when the run made a
directory: the run writes a class that is not the one that the classpath had before, and the
same run again removes a stamp from a class that did not carry it before. And a class that is
found elsewhere may carry the stamp twice: the run says that it removed the stamp, and writes
a class that carries it. -/
theorem elsewhere_misleads :
    (detourConfig.InPlace detourFiles ∧ detourConfig.Distinct detourFiles ∧
      ∃ report report',
        let r := removeStamps detourConfig [stamper] detourAmbient detourFiles
        r.report = .ok report ∧
        (removeStamps detourConfig [stamper] detourAmbient r.files).report = .ok report' ∧
        (∃ o ∈ report.outcomes, o.state = .unstamped ∧
          ∃ b bytes, detourConfig.Resolves detourAmbient detourFiles o.name b ∧
            r.files.read (detourConfig.classOutput.pathFor o.name) = .ok bytes ∧
            ∀ names, ClassFile.parse bytes ≠ .ok (b.without names)) ∧
        ∃ o ∈ report.outcomes, ∃ o' ∈ report'.outcomes, o.state = .notStamped ∧
          o'.transformer = o.transformer ∧ o'.name = o.name ∧ o'.state = .unstamped) ∧
    doubledConfig.InPlace doubledFiles ∧ doubledConfig.Distinct doubledFiles ∧ ∃ report,
      let r := removeStamps doubledConfig [stamper] [] doubledFiles
      r.report = .ok report ∧ ∃ o ∈ report.outcomes, o.state = .unstamped ∧ ∃ bytes,
        r.files.read (doubledConfig.classOutput.pathFor o.name) = .ok bytes ∧
          ∃ c, ClassFile.parse bytes = .ok c ∧ c.Declares o.stampField := by
  refine ⟨⟨fun input hin => by cases hin; rfl,
    Config.inTree_of_nodes rfl 1 (fun _ => distinctFields_of_one) (by decide +kernel), ?_⟩,
    fun input hin => by cases hin; rfl,
    Config.inTree_of_nodes rfl 1 (fun _ => distinctFields_of_one) (by decide +kernel), ?_⟩
  · obtain ⟨htold, hin, hroot, hext, hfile, htold'⟩ := detour_behind
    obtain ⟨hreport, hfiles⟩ := removeStamps_detour (t := detourFiles) (by decide +kernel)
      (by decide +kernel) (by decide +kernel)
    obtain ⟨hreport', -⟩ := removeStamps_detour hin hroot hext
    obtain ⟨late, hlate, -, hname, hstate⟩ := mem_told
      (htold ▸ List.mem_cons_of_mem _ (List.mem_cons_of_mem _ List.mem_cons_self))
    obtain ⟨o, ho, hidentity, hmissing, hkept⟩ := mem_told (htold ▸ List.mem_cons_self)
    obtain ⟨o', ho', hidentity', hmissing', hlost⟩ := mem_told (htold' ▸ List.mem_cons_self)
    obtain ⟨b, hresolves, hcount⟩ := detour_resolves
    obtain ⟨bytes, hread, hcount'⟩ := exists_eq_ok hfile
    obtain ⟨c, hparse, hcount'⟩ := exists_eq_ok hcount'
    refine ⟨_, _, hreport, by rw [hfiles]; exact hreport',
      ⟨late, hlate, hstate, b, bytes, hname ▸ hresolves, ?_, fun names heq => ?_⟩,
      o, ho, o', outcomes_detourState ho', hkept, hidentity'.trans hidentity.symm,
      hmissing'.trans hmissing.symm, hlost⟩
    · rw [hname, hfiles]
      exact hread
    · cases hparse.symm.trans heq
      rw [ClassFile.pool_without, hcount] at hcount'
      cases hcount'
  · obtain ⟨report, hok, houtcomes, bytes, hread, c, hparse, hdeclares⟩ := doubled_behind
    obtain ⟨o, rest, hrest, ho, -⟩ := List.map_eq_cons_iff.1 houtcomes
    simp only [Prod.mk.injEq] at ho
    obtain ⟨hidentity, hname, hstate⟩ := ho
    refine ⟨report, hok, o, hrest ▸ List.mem_cons_self, hstate, bytes, hname ▸ hread, c, hparse, ?_⟩
    rw [Outcome.stampField, hidentity]
    exact hdeclares

end ClassStamp.Run
